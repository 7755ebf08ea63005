import CustomProperties.Proofs.Files.Write
import CustomProperties.Proofs.Run.Return
import CustomProperties.Proofs.Run.Copy
import CustomProperties.Proofs.Text.Control

/-!
What a call for a target comes to. A target that is there has bytes, and they decide: they are no text,
or a text that is no stylesheet, or a stylesheet, which is supplied and shown or written. The sources have
a say in what it is supplied with, but only one that runs into a circle of links can stop the call. A call
that comes to nothing leaves all files as they are.
-/

namespace CustomProperties

/-- A source does not run into a circle of links. -/
def FileTree.Straight (t : FileTree) (base : Option String) (source : String) : Prop :=
  (Path.ofString source).isAbsolute = false →
    t.find (t.canonical ((Path.ofString source).under (.ofString (base.getD "")))) ≠
      .error .tooManyLinks

theorem FileTree.takes_iff {t : FileTree} {base : Option String} {source : String}
    (named : Path.Clean source) (based : Path.Clean (base.getD "")) :
    t.Takes base source ↔ t.Straight base source :=
  ⟨fun takes => takes.straight, fun straight => ⟨named, fun _ => based, straight⟩⟩

theorem clean_baseOf {p : Path} (written : p.Written) (clean : p.hasNul = false) :
    Path.Clean ((baseOf (some p.toString)).getD "") := by
  rw [baseOf]
  split
  · decide
  · have parent : p.parent.Written :=
      ⟨written.root, fun part there => written.parts part ((List.dropLast_sublist _).subset there)⟩
    rw [Path.ofString_toString written, Option.getD_some, ← Path.hasNul_ofString,
      Path.ofString_toString parent, Path.hasNul_eq_false_iff]
    exact fun part there =>
      Path.hasNul_eq_false_iff.1 clean part ((List.dropLast_sublist _).subset there)

def FileTree.Writable (t : FileTree) (p : Path) : Prop :=
  ∀ content modified, ∃ files, t.write p content modified = .ok files

namespace Cli

theorem bind_eq_ok {ε α β : Type} {x : Except ε α} {f : α → Except ε β} {b : β} :
    x >>= f = .ok b ↔ ∃ a, x = .ok a ∧ f a = .ok b := by
  cases x with
  | error e => simp [bind, Except.bind]
  | ok a => simp [bind, Except.bind]

theorem throw_ne_ok {ε α : Type} {e : ε} {a : α} : (throw e : Except ε α) ≠ .ok a := by
  simp [throw, throwThe, MonadExceptOf.throw]

variable {t : FileTree} {args : List String} {call : ProcessCall} {content : ByteArray}
  {modified : Int} {text : Text}

theorem checkFile_target (called : readProcessCall t args = .ok call) :
    checkFile t true "'TARGET'" call.target = .ok () := by
  rw [readProcessCall] at called
  obtain ⟨a, -, called⟩ := bind_eq_ok.1 called
  cases operands : a.operands with
  | nil =>
      simp only [operands] at called
      split at called
      · obtain ⟨⟨⟩, -, called⟩ := bind_eq_ok.1 called
        exact absurd called throw_ne_ok
      · exact absurd called throw_ne_ok
  | cons target rest =>
      simp only [operands] at called
      have read : (do
          checkFile t true "'TARGET'" target
          checkExtra rest
          return ⟨target, a.values .fallback, (a.value? .output).filter (!·.isEmpty),
            a.has .verbose⟩ : Except Refusal ProcessCall) = .ok call := by
        split at called
        · obtain ⟨⟨⟩, -, called⟩ := bind_eq_ok.1 called
          exact called
        · exact called
      obtain ⟨⟨⟩, checked, read⟩ := bind_eq_ok.1 read
      obtain ⟨⟨⟩, -, read⟩ := bind_eq_ok.1 read
      obtain rfl := Except.ok.inj read
      exact checked

theorem hasNul_target (called : readProcessCall t args = .ok call) :
    (Path.ofString call.target).hasNul = false := by
  obtain ⟨e, there, -⟩ := bind_eq_ok.1 (checkFile_target called)
  rw [entryAt] at there
  split at there
  · simp at there
  · rename_i clean
    simpa using clean

/-- The path of the target as it is told to the run. -/
def ProcessCall.path (call : ProcessCall) : String := (Path.ofString call.target).toString

theorem ofString_path (call : ProcessCall) : Path.ofString call.path = Path.ofString call.target :=
  Path.ofString_toString (Path.written_ofString call.target)

theorem ProcessCall.fallbacks_setting (call : ProcessCall) :
    call.setting.fallbacks = .ok (.list (call.fallbacks.map .text)) :=
  rfl

theorem process_of_undecodable {fault : Utf8.Fault}
    (clean : (Path.ofString call.target).hasNul = false)
    (stands : t.read (.ofString call.target) = .ok (content, modified))
    (broken : Utf8.decode content = .error fault) :
    process t call = .crashed t "" (.run (.unreadable call.path (.encoding fault))) := by
  have unread : Loader.empty.processFile t call.path call.setting =
      ⟨.error (.unreadable call.path (.encoding fault)), [], .empty⟩ := by
    simp only [Loader.processFile, ofString_path, clean, FileTree.readText, stands, broken]
    rfl
  rw [ProcessCall.path, ProcessCall.setting] at unread
  delta process
  simp only [unread]
  rfl

theorem process_of_malformed {cause : ParseError}
    (ran : Loader.empty.processFile t call.path call.setting =
      Loader.empty.process t text call.setting (some call.path))
    (malformed : Stylesheet.parse text = .error cause) :
    process t call =
      ⟨1, "", printed ("Parse error: " ++ cause.message ++ "\n"), none, t⟩ := by
  rw [Loader.process, malformed, ProcessCall.path, ProcessCall.setting] at ran
  delta process
  simp only [ran, List.map_nil]
  rfl

theorem process_of_fault {fault : PathFault}
    (ran : (Loader.empty.processFile t call.path call.setting).outcome = .error (.badPath fault)) :
    ∃ err, process t call = .crashed t err (.run (.badPath fault)) := by
  rw [ProcessCall.path, ProcessCall.setting] at ran
  delta process
  simp only [ran]
  exact ⟨_, rfl⟩

theorem process_of_shown {out : Stylesheet}
    (returned : (Loader.empty.processFile t call.path call.setting).outcome = .ok out)
    (unnamed : call.output = none) :
    ∃ err, process t call = ⟨0, printed (String.ofList out.toCss), err, none, t⟩ := by
  rw [ProcessCall.path, ProcessCall.setting] at returned
  delta process
  simp only [returned, unnamed]
  exact ⟨_, rfl⟩

section Sources

variable {sheet : Stylesheet} (clean : t.Clean) (named : (Path.ofString call.target).hasNul = false)
  (proper : ∀ source ∈ call.fallbacks, Path.Clean source) (parsed : Stylesheet.parse text = .ok sheet)

include clean named proper parsed

theorem returns_of_straight
    (straight : ∀ source ∈ call.fallbacks, t.Straight (baseOf (some call.path)) source) :
    ∃ out, (Loader.empty.process t text call.setting (some call.path)).outcome = .ok out := by
  have based := clean_baseOf (Path.written_ofString call.target) named
  refine ⟨_, ((Loader.process_of_clean .empty parsed call.fallbacks_setting clean).1 ?_).outcome⟩
  rw [Setting.paths_texts]
  exact fun source there => (FileTree.takes_iff (proper source there) based).2 (straight source there)

theorem fails_of_circle {source : String} (there : source ∈ call.fallbacks)
    (circle : ¬t.Straight (baseOf (some call.path)) source) :
    ∃ fault, (Loader.empty.process t text call.setting (some call.path)).outcome =
      .error (.badPath fault) := by
  have based := clean_baseOf (Path.written_ofString call.target) named
  refine (Loader.process_of_clean .empty parsed call.fallbacks_setting clean).2 ⟨source, ?_, ?_⟩
  · rwa [Setting.paths_texts]
  · exact mt (FileTree.takes_iff (proper source there) based).1 circle

end Sources

/-- What a call comes to whose target has a text. -/
structure Settles (t : FileTree) (call : ProcessCall) (text : Text) (outcome : Outcome) : Prop where
  malformed : ∀ cause, Stylesheet.parse text = .error cause →
    outcome = ⟨1, "", printed ("Parse error: " ++ cause.message ++ "\n"), none, t⟩
  /-- Without an output the result is shown, and is shown whole if no control sequence stands in it. -/
  shown : ∀ sheet, Stylesheet.parse text = .ok sheet →
    (∀ source ∈ call.fallbacks, t.Straight (baseOf (some call.path)) source) → call.output = none →
      ∃ out err, (Loader.empty.process t text call.setting (some call.path)).outcome = .ok out ∧
        outcome = ⟨0, printed (String.ofList out.toCss), err, none, t⟩ ∧
        (printed (String.ofList out.toCss) = String.ofList out.toCss ↔ out.toCss.Uncontrolled)
  /-- An output that can be written receives the result, and no other file changes. -/
  written : ∀ sheet, Stylesheet.parse text = .ok sheet →
    (∀ source ∈ call.fallbacks, t.Straight (baseOf (some call.path)) source) →
      ∀ output, call.output = some output → t.Writable (.ofString output) →
        ∃ out err files, (Loader.empty.process t text call.setting (some call.path)).outcome = .ok out ∧
          outcome = ⟨0, "", err, none, files⟩ ∧
          files.read (.ofString output) = .ok (Utf8.encode out.toCss, 0) ∧
          ∃ place, files = t.set place (.file (Utf8.encode out.toCss) 0) ∧ t.Room place
  circle : ∀ sheet, Stylesheet.parse text = .ok sheet →
    ∀ source ∈ call.fallbacks, ¬t.Straight (baseOf (some call.path)) source →
      ∃ fault err, outcome = .crashed t err (.run (.badPath fault))

/-- What a call comes to whose target is a file: one that is no text lets the program break off, with all
files as they are, and a text settles the call. -/
theorem run_process_settles (clean : t.Clean) (called : readProcessCall t args = .ok call)
    (proper : ∀ source ∈ call.fallbacks, Path.Clean source)
    (stands : t.read (.ofString call.target) = .ok (content, modified)) :
    (∀ fault, Utf8.decode content = .error fault →
      run t ("process" :: args) =
        .crashed t "" (.run (.unreadable call.path (.encoding fault)))) ∧
    ∀ text, Utf8.decode content = .ok text →
      Settles t call (Text.unifyLineEnds text) (run t ("process" :: args)) := by
  have named := hasNul_target called
  have runs : run t ("process" :: args) = process t call := by
    rw [run_process, runProcess, called]
  rw [runs]
  refine ⟨fun fault broken => process_of_undecodable named stands broken, fun text decoded => ?_⟩
  have ran : Loader.empty.processFile t call.path call.setting =
      Loader.empty.process t (Text.unifyLineEnds text) call.setting (some call.path) := by
    rw [← ofString_path] at named stands
    exact Loader.processFile_of_read named stands decoded
  constructor
  case malformed => exact fun cause malformed => process_of_malformed ran malformed
  case shown =>
    intro sheet parsed straight unnamed
    obtain ⟨out, returned⟩ := returns_of_straight clean named proper parsed straight
    obtain ⟨err, shown⟩ := process_of_shown (ran ▸ returned) unnamed
    refine ⟨out, err, returned, shown, ?_⟩
    rw [printed, String.ofList_inj, String.toList_ofList]
    exact Text.withoutControls_eq_self_iff out.toCss
  case written =>
    intro sheet parsed straight output asked writable
    obtain ⟨out, returned⟩ := returns_of_straight clean named proper parsed straight
    obtain ⟨files, written⟩ := writable (Utf8.encode out.toCss) 0
    obtain ⟨err, wrote⟩ := process_of_returned (ran ▸ returned) asked written
    obtain ⟨reads, place, same, room⟩ := FileTree.read_write written
    exact ⟨out, err, files, returned, wrote, reads, place, same, room⟩
  case circle =>
    intro sheet parsed source there circle
    obtain ⟨fault, failed⟩ := fails_of_circle clean named proper parsed there circle
    obtain ⟨err, crashed⟩ := process_of_fault (ran ▸ failed)
    exact ⟨fault, err, crashed⟩

/-- A directory with a target and a stylesheet for it. -/
def desk (content : ByteArray) : FileTree :=
  ⟨[(["w"], .directory), (["w", "theme.css"], .file ":root\x7b--k:1px\x7d".toUTF8 0),
    (["w", "in.css"], .file content 0)], ["w"]⟩

theorem run_process_settles_desk :
    let t := desk "a\x7bb:var(--k)\x7d".toUTF8
    let args := ["in.css", "-f", "theme.css", "-fnone.css", "--output=out.css"]
    t.Clean ∧ t.Writable (.ofString "out.css") ∧
    (∃ call, readProcessCall t args = .ok call ∧
      Settles t call "a\x7bb:var(--k)\x7d".toList (run t ("process" :: args))) ∧
    (run t ("process" :: args)).files.content? ["w", "out.css"] =
      some "a\x7bb:var(--k, 1px)\x7d".toUTF8 := by
  intro t args
  have clean : t.Clean := by
    constructor
    case current => decide
    case targets => simp [FileTree.inhabitants, t, desk, Entry.directory]
  have reads : (readProcessCall t args).toOption.map (fun call => (call.target, call.fallbacks)) =
      some ("in.css", ["theme.css", "none.css"]) := by
    decide +kernel
  obtain ⟨call, read, parts⟩ := Option.map_eq_some_iff.1 reads
  obtain ⟨target, fallbacks⟩ := Prod.mk.inj parts
  have proper : ∀ source ∈ call.fallbacks, Path.Clean source := by
    rw [fallbacks]
    decide
  have stands : t.read (.ofString call.target) = .ok ("a\x7bb:var(--k)\x7d".toUTF8, 0) := by
    rw [target]
    rfl
  have decoded : Utf8.decode "a\x7bb:var(--k)\x7d".toUTF8 = .ok "a\x7bb:var(--k)\x7d".toList := rfl
  have settles := (run_process_settles clean (ok_of_toOption read) proper stands).2 _ decoded
  exact ⟨clean, fun content modified => ⟨_, rfl⟩, ⟨call, ok_of_toOption read, settles⟩,
    by decide +kernel⟩

/-- A target that is no text lets the program break off, and a control sequence in the result is not
shown. -/
theorem run_process_breaks :
    (run (desk ⟨#[255]⟩) ["process", "in.css"]).crash.map Crash.message =
      some "'utf-8' codec can't decode byte 0xff in position 0: invalid start byte" ∧
    (run (desk ⟨#[255]⟩) ["process", "in.css"]).err = "" ∧
    (run (desk "a\x7bb:\"\x1b[1m\"\x7d".toUTF8) ["process", "in.css"]).status = 0 ∧
    (Loader.empty.process (desk "a\x7bb:\"\x1b[1m\"\x7d".toUTF8) "a\x7bb:\"\x1b[1m\"\x7d".toList
        (.table [("fallbacks", .list [])]) (some "in.css")).outcome.toOption.map Stylesheet.toCss =
      some "a\x7bb:\"\x1b[1m\"\x7d".toList ∧
    (run (desk "a\x7bb:\"\x1b[1m\"\x7d".toUTF8) ["process", "in.css"]).out = "a\x7bb:\"\"\x7d" :=
  ⟨by decide +kernel, by decide +kernel, by decide +kernel, by decide +kernel, by decide +kernel⟩

end Cli

end CustomProperties
