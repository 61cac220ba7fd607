import JsonRecords.Command.Run
import JsonRecords.Proofs.Output.Write

/-!
# Where the output of a run goes

All that can fail before a run has made its text, and the text itself, is the
same wherever the text goes (`run_cases`). So a run that writes to a path leaves
there what it would have printed, and a run that fails leaves every file as it
was and prints nothing (`run_delivers`).
-/

namespace JsonRecords

namespace Command

/-- The same options, with another way for the output to go. -/
def withOutput (o : Options) (output : Option String) : Options :=
  { o with output := output }

/-- A run fails before it has a text, or has one to deliver, and in either case
the same one wherever the output is to go. -/
theorem run_cases (o : Options) (stdin : Bytes) (files : FileTree) :
    (∃ log report, ∀ output, run (withOutput o output) stdin files = failure log report files) ∨
      ∃ log text, ∀ output,
        run (withOutput o output) stdin files = deliver (withOutput o output) log text files := by
  have htext (output : Option String) (target : Target) :
      fromText (withOutput o output) target = fromText o target := rfl
  have hsource (output : Option String) :
      source (withOutput o output) stdin files = source o stdin files := rfl
  have htarget (output : Option String) : (withOutput o output).target = o.target := rfl
  simp only [run, htext, hsource, htarget]
  cases Target.ofName o.target with
  | error e => exact .inl ⟨[], .ofError none e, fun _ => rfl⟩
  | ok target =>
      cases source o stdin files with
      | error report => exact .inl ⟨[], report, fun _ => rfl⟩
      | ok input =>
          cases hresult : (fromText o target input).result with
          | error report =>
              exact .inl ⟨(fromText o target input).log, report, fun _ => by simp [hresult]⟩
          | ok text =>
              exact .inr ⟨(fromText o target input).log, text, fun _ => by simp [hresult]⟩

/-- The places at which options allow a run to make directories: those that the
output's path lies in. -/
def mayMake (o : Options) (files : FileTree) : Set Place :=
  {place | ∃ path, o.output = some path ∧ place ∈ files.placesAbove path}

/-- A text without a path to go to is printed, and nothing can fail any more. -/
theorem deliver_none (o : Options) (log : List Log.Line) (text : String) (files : FileTree) :
    deliver (withOutput o none) log text files =
      ⟨0, terminated (Utf8.ofString text), log, none, files⟩ :=
  rfl

/-- A text with a path to go to is written there, and the run succeeds if that
does. -/
theorem deliver_cases {o : Options} {path : String} (ho : o.output = some path)
    (log : List Log.Line) (text : String) (files : FileTree) :
    (∃ files' e, files.writeSource path (Utf8.ofString text) = (files', .error e) ∧
        deliver o log text files = failure log (.ofError none e) files') ∨
      ∃ files', files.writeSource path (Utf8.ofString text) = (files', .ok ()) ∧
        deliver o log text files = ⟨0, [], log, none, files'⟩ := by
  rcases h : files.writeSource path (Utf8.ofString text) with ⟨files', e | _⟩
  · exact .inl ⟨files', e, rfl, by simp [deliver, ho, h]⟩
  · exact .inr ⟨files', rfl, by simp [deliver, ho, h]⟩

/-- A run that fails prints nothing and leaves all files as they were, with
directories made at most for the path it was to write to. A run that prints
changes nothing. A run that writes to a path prints nothing; the file it leaves
there holds what the same run would have printed, and all other files are as
they were. -/
theorem run_delivers (o : Options) (stdin : Bytes) (files : FileTree) :
    let outcome := run o stdin files
    let printed := run (withOutput o none) stdin files
    (outcome.exitCode ≠ 0 →
      outcome.stdout = [] ∧ ∀ place, files.KeepsAt (mayMake o files) outcome.files place) ∧
    (o.output = none → outcome.files = files) ∧
    ∀ path, o.output = some path → outcome.exitCode = 0 →
      printed.exitCode = 0 ∧ outcome.stdout = [] ∧
      outcome.files.open? path = .ok (.file printed.stdout) ∧
      outcome.files.get? (files.placeOf path) = some (.file printed.stdout) ∧
      ∀ place, place ≠ files.placeOf path →
        files.KeepsAt (mayMake o files) outcome.files place := by
  obtain ⟨log, report, hrun⟩ | ⟨log, text, hrun⟩ := run_cases o stdin files
  · -- The run fails before it has a text.
    have hself : run o stdin files = failure log report files := hrun o.output
    rw [hself]
    exact ⟨fun _ => ⟨rfl, fun place => .inl rfl⟩, fun _ => rfl, fun _ _ h => nomatch h⟩
  · have hself : run o stdin files = deliver o log text files := hrun o.output
    cases ho : o.output with
    | none =>
        have hprint : deliver o log text files =
            ⟨0, terminated (Utf8.ofString text), log, none, files⟩ := by simp [deliver, ho]
        rw [hself, hprint]
        exact ⟨fun h => absurd rfl h, fun _ => rfl, nofun⟩
    | some path =>
        have hmay : mayMake o files = files.placesAbove path := by
          simp [mayMake, ho]
        rw [hself, hrun none, deliver_none, hmay]
        obtain ⟨files', e, hwrite, hfail⟩ | ⟨files', hwrite, hdone⟩ :=
          deliver_cases ho log text files
        · have hkeeps := FileTree.keeps_of_writeSource_error hwrite
          rw [hfail]
          exact ⟨fun _ => ⟨rfl, hkeeps.keepsAt⟩, nofun, fun _ _ h => nomatch h⟩
        · obtain ⟨hopen, hget, hkeeps⟩ := FileTree.open?_writeSource hwrite
          rw [hdone]
          refine ⟨fun h => absurd rfl h, nofun, ?_⟩
          rintro _ ⟨⟩ -
          exact ⟨rfl, rfl, hopen, hget, hkeeps⟩

/-- A run that reads a file and writes to the same path. -/
def inPlace : Options :=
  ⟨some "a", false, "python", none, none, some "a", true⟩

def oneFile : FileTree :=
  ⟨[("a", .file [123, 125])], []⟩

theorem run_delivers_in_place :
    (run inPlace [] oneFile).exitCode = 0 ∧
      (run inPlace [] oneFile).files.open? "a" =
        .ok (.file (run (withOutput inPlace none) [] oneFile).stdout) ∧
      (run (withOutput inPlace (some "a/b")) [] oneFile).exitCode ≠ 0 ∧
      (run (withOutput inPlace (some "a/b")) [] oneFile).stdout = [] := by
  have hdone : (run inPlace [] oneFile).exitCode = 0 := by decide +kernel
  have hfailed : (run (withOutput inPlace (some "a/b")) [] oneFile).exitCode ≠ 0 := by
    decide +kernel
  obtain ⟨-, -, hwrites⟩ := run_delivers inPlace [] oneFile
  obtain ⟨-, -, hopen, -⟩ := hwrites "a" rfl hdone
  exact ⟨hdone, hopen, hfailed, ((run_delivers _ _ _).1 hfailed).1⟩

end Command

end JsonRecords
