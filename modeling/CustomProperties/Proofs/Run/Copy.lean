import CustomProperties.Cli.Run
import CustomProperties.Proofs.Files.Path
import CustomProperties.Proofs.Run.Again
import CustomProperties.Proofs.Text.Bytes

/-!
Files that a run has nothing to supply in. Such a file is written again as it was read, and it is read
with its line ends made one. So it comes out byte for byte when no carriage return stands in it, and
otherwise with other line ends, but with all its other characters.
-/

namespace CustomProperties

/-- A text is a stylesheet none of whose references has a computed value from the fallbacks. -/
def Loader.Idle (l : Loader) (t : FileTree) (options : Setting) (path : Option String)
    (text : Text) : Prop :=
  ∃ sheet v, Stylesheet.parse text = .ok sheet ∧ l.configured t options path = some v ∧
    ∀ d ∈ sheet.declarations, ∀ ref ∈ references d.value, (v.computed ref.name).getD [] = []

variable {l : Loader} {t : FileTree} {options : Setting} {path : Option String} {text : Text}

theorem Loader.Idle.process (idle : l.Idle t options path text) :
    ∃ out, (l.process t text options path).outcome = .ok out ∧ out.toCss = text := by
  obtain ⟨sheet, v, parsed, merged, empty⟩ := idle
  refine ⟨_, process_of_configured parsed merged, ?_⟩
  split
  · exact Stylesheet.toCss_of_parse parsed
  · have faithful := Resolver.faithful_ofCircular v.grounded_circular
    rw [Stylesheet.toCss_supply parsed faithful]
    exact congrArg _ (Stylesheet.edits_eq_nil empty)

namespace Cli

def ProcessCall.setting (call : ProcessCall) : Setting :=
  .table [("fallbacks", .list (call.fallbacks.map .text))]

theorem run_process (t : FileTree) (args : List String) :
    run t ("process" :: args) = runProcess t args := by
  have first : readArguments Page.program.options false ("process" :: args) =
      .ok ⟨[], "process" :: args⟩ := by
    rw [readArguments, if_neg (by decide)]
    simp only [show isOption "process" = false by decide +kernel, Bool.false_eq_true, if_false]
  have starts : start .program false ("process" :: args) = .ok ⟨[], "process" :: args⟩ := by
    rw [start, first]
    rfl
  rw [run, starts]
  rfl

theorem process_of_returned {call : ProcessCall} {output : String} {out : Stylesheet}
    {files : FileTree}
    (returned : (Loader.empty.processFile t (Path.ofString call.target).toString
      call.setting).outcome = .ok out)
    (named : call.output = some output)
    (written : t.write (.ofString output) (Utf8.encode out.toCss) 0 = .ok files) :
    ∃ err, process t call = ⟨0, "", err, none, files⟩ := by
  rw [ProcessCall.setting] at returned
  delta process
  simp only [returned, named, written]
  exact ⟨_, rfl⟩

end Cli

section File

variable {name : String} {content : ByteArray} {modified : Int}

theorem Loader.processFile_of_read (clean : (Path.ofString name).hasNul = false)
    (stands : t.read (.ofString name) = .ok (content, modified))
    (decoded : Utf8.decode content = .ok text) :
    l.processFile t name options =
      l.process t (Text.unifyLineEnds text) options (some name) := by
  simp only [processFile, clean, Bool.false_eq_true, if_false, FileTree.readText, stands, decoded]

/-- What becomes of a file that a run has nothing to supply in. Its text comes out with its line ends
made one, and so with its own bytes exactly when no carriage return stands in it; all other characters
are kept in any case. A call of the program writes the same. -/
theorem toCss_of_idle (clean : (Path.ofString name).hasNul = false)
    (stands : t.read (.ofString name) = .ok (content, modified))
    (decoded : Utf8.decode content = .ok text) :
    (∀ (l : Loader) (options : Setting),
      l.Idle t options (some name) (Text.unifyLineEnds text) →
        ∃ out, (l.processFile t name options).outcome = .ok out ∧
          out.toCss = Text.unifyLineEnds text) ∧
    (∀ (args : List String) (call : Cli.ProcessCall) (output : String) (files : FileTree),
      Cli.readProcessCall t args = .ok call → call.target = name → call.output = some output →
      Loader.empty.Idle t call.setting (some (Path.ofString name).toString)
        (Text.unifyLineEnds text) →
      t.write (.ofString output) (Utf8.encode (Text.unifyLineEnds text)) 0 = .ok files →
        ∃ err, Cli.run t ("process" :: args) = ⟨0, "", err, none, files⟩) ∧
    (Utf8.encode (Text.unifyLineEnds text) = content ↔ '\r' ∉ text) ∧
    (Text.unifyLineEnds text).filter (!Text.isLineEnd ·) = text.filter (!Text.isLineEnd ·) := by
  refine ⟨fun l options idle => ?_, fun args call output files read target named idle written => ?_,
    ?_, Text.filter_unifyLineEnds text⟩
  · rw [Loader.processFile_of_read clean stands decoded]
    exact idle.process
  · subst target
    -- The target is read again from the text of its path.
    have again := Path.ofString_toString (Path.written_ofString call.target)
    obtain ⟨out, returned, css⟩ := idle.process
    rw [← Loader.processFile_of_read (again.symm ▸ clean) (again.symm ▸ stands) decoded] at returned
    rw [Cli.run_process, Cli.runProcess, read]
    exact Cli.process_of_returned returned named (css ▸ written)
  · rw [← Text.unifyLineEnds_eq_self_iff]
    constructor
    · intro same
      exact Utf8.encode_injective (same.trans (Utf8.encode_of_decode decoded).symm)
    · intro same
      rw [same, Utf8.encode_of_decode decoded]

end File

theorem Loader.idle_of_answers
    (evaluates : (((Stylesheet.parse text).toOption.bind fun sheet =>
      (l.configured t options path).map fun v =>
        decide (∀ d ∈ sheet.declarations, ∀ ref ∈ references d.value,
          ((Resolver.ofCircular v v.circular).answer v.circular ref.name).getD [] = []))) =
      some true) : l.Idle t options path text := by
  obtain ⟨sheet, parsed, evaluates⟩ := Option.bind_eq_some_iff.1 evaluates
  obtain ⟨v, merged, evaluates⟩ := Option.map_eq_some_iff.1 evaluates
  exact ⟨sheet, v, ok_of_toOption parsed, merged, v.computed_eq ▸ of_decide_eq_true evaluates⟩

def album (css : String) : FileTree :=
  ⟨[(["w"], .directory), (["w", "theme.css"], .file ":root\x7b--a:var(--a);--e:\x7d".toUTF8 0),
    (["w", "in.css"], .file css.toUTF8 0)], ["w"]⟩

/-- A byte order mark, separators of several kinds, and references that come to nothing. -/
def pressed : String :=
  "\ufeff/*\x0b\u2028*/ a\x7b\n\tb :var( --a ,1) var(--e)\u0085\"\u2029\" var(--u) ;\x7d\x0c\n\n"

theorem toCss_of_idle_pressed :
    Loader.empty.Idle (album pressed) shelfOptions (some "./in.css") pressed.toList ∧
    (∃ out, (Loader.empty.processFile (album pressed) "./in.css" shelfOptions).outcome = .ok out ∧
      Utf8.encode out.toCss = pressed.toUTF8) ∧
    ∃ err, Cli.run (album pressed) ["process", "-f", "theme.css", "./in.css", "-oout.css"] =
      ⟨0, "", err, none, (album pressed).set ["w", "out.css"] (.file pressed.toUTF8 0)⟩ := by
  have same : Text.unifyLineEnds pressed.toList = pressed.toList := by decide +kernel
  have idle : Loader.empty.Idle (album pressed) shelfOptions (some "./in.css") pressed.toList :=
    Loader.idle_of_answers (by decide +kernel)
  have called : Loader.empty.Idle (album pressed) shelfOptions
      (some (Path.ofString "./in.css").toString) pressed.toList :=
    Loader.idle_of_answers (by decide +kernel)
  have reads : (Cli.readProcessCall (album pressed)
      ["-f", "theme.css", "./in.css", "-oout.css"]).toOption.map
        (fun call => (call.target, call.fallbacks, call.output)) =
      some ("./in.css", ["theme.css"], some "out.css") := by
    decide +kernel
  obtain ⟨call, read, parts⟩ := Option.map_eq_some_iff.1 reads
  obtain ⟨target, fallbacks, named⟩ := by simpa only [Prod.mk.injEq] using parts
  have stands : (album pressed).read (.ofString "./in.css") = .ok (pressed.toUTF8, 0) := rfl
  have decoded : Utf8.decode pressed.toUTF8 = .ok pressed.toList := rfl
  obtain ⟨run, calls, bytes, -⟩ := toCss_of_idle (by decide +kernel) stands decoded
  rw [same] at run calls bytes
  obtain ⟨out, returned, css⟩ := run _ _ idle
  refine ⟨idle, ⟨out, returned, css ▸ bytes.2 (by decide +kernel)⟩, ?_⟩
  exact calls _ call "out.css" _ (ok_of_toOption read) target named
    (by rw [Cli.ProcessCall.setting, fallbacks]; exact called) rfl

/-- A line that ends with a carriage return and a line feed comes out with the line feed alone, and so it
is written by a call. -/
theorem toCss_return :
    Loader.empty.Idle (album "a\x7bb:c\x7d\r\n") (.table [("fallbacks", .list [])]) (some "in.css")
      "a\x7bb:c\x7d\r\n".toList ∧
    (Loader.empty.processFile (album "a\x7bb:c\x7d\r\n") "in.css"
        (.table [("fallbacks", .list [])])).outcome.toOption.map (fun out => Utf8.encode out.toCss) =
      some "a\x7bb:c\x7d\n".toUTF8 ∧
    (Cli.run (album "a\x7bb:c\x7d\r\n") ["process", "in.css", "-o", "out.css"]).files.content?
      ["w", "out.css"] = some "a\x7bb:c\x7d\n".toUTF8 ∧
    "a\x7bb:c\x7d\n".toUTF8 ≠ "a\x7bb:c\x7d\r\n".toUTF8 :=
  ⟨Loader.idle_of_answers (by decide +kernel), by decide +kernel, by decide +kernel,
    by decide +kernel⟩

end CustomProperties
