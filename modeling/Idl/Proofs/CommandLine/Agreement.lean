import Idl.CommandLine
import Idl.Proofs.CommandLine.Arguments
import Idl.Proofs.Source.Locations
import Idl.Proofs.Source.Pieces

/-!
# The program and the library

The program reads a file in two phases of its own and prints declaration by declaration. What comes of it is
what the library makes of the content as a whole: the tokens on request, and otherwise the program that is
read, as its JSON form or its canonical text. If the library has an error instead, there is no output, and
the error is reported by its code (`Agrees`, `treat_agrees`).

`command_line_agrees` says this of every command line that asks for something to be done: that it fails
without a file to treat, and that a request for progress reports changes neither the exit code nor the
output.
-/

namespace Idl.CommandLine

/-! ## The output for a program -/

/-- The declarations of a program, each with a line break behind it, are its text with a line break behind
that, if there are any. -/
theorem programOutput_eq (flags : List Flag) (p : Program) :
    programOutput flags p =
      if .json ∈ flags then Schema.program.pretty p ++ "\n"
      else if p.toList = [] then "" else p.text ++ "\n" := by
  unfold programOutput
  split
  · rfl
  · split
    · next hempty => rw [hempty]; rfl
    · next hne => exact (Program.text_append_break hne).symm

/-! ## The treatment of a file -/

/-- The dialect that the flags choose: block comments are read unless they are switched off. -/
def chosenDialect (flags : List Flag) : Dialect := ⟨.noComments ∉ flags⟩

/-- What is reported before a file is treated. -/
def openingReport (flags : List Flag) (path : String) : String :=
  if .verbose ∈ flags then s!"Parsing {path}...\n" else ""

/-- Whether an outcome is what the library says about a source text. Of the report of an error, this concerns
the first line only: what the report has behind it is not part of an outcome. -/
structure Agrees (flags : List Flag) (path source : String) (o : Outcome) : Prop where
  /-- The tokens are listed if there are any, whatever the parser would make of them. -/
  listed : .tokens ∈ flags → ∀ ts, tokenize (chosenDialect flags) source = .ok ts →
    o.code = 0 ∧ o.stdout = .join (ts.map fun t => s!"{t.position.chars} {t.kind.name} {t.text}\n")
  /-- Otherwise they are not, and the error says why there are none. -/
  unlisted : .tokens ∈ flags → ∀ e, tokenize (chosenDialect flags) source = .error e →
    o = ⟨1, "", openingReport flags path ++ s!"Error: {e.diagnostic.code}\n"⟩
  /-- The program is printed if there is one, in the form asked for. -/
  printed : .tokens ∉ flags → ∀ p, parseSource (chosenDialect flags) source = .ok p →
    o.code = 0 ∧ o.stdout =
      if .json ∈ flags then Schema.program.pretty p ++ "\n"
      else if p.toList = [] then "" else p.text ++ "\n"
  /-- Otherwise nothing is, and the error says why there is none. -/
  unprinted : .tokens ∉ flags → ∀ e, parseSource (chosenDialect flags) source = .error e →
    o = ⟨1, "", openingReport flags path ++ s!"Error: {e.diagnostic.code}\n"⟩

/-- The treatment of a source text agrees with the library. -/
theorem treat_agrees (flags : List Flag) (path source : String) :
    Agrees flags path source (treat flags path source) := by
  constructor
  case listed =>
    intro hflag ts hts
    change tokenize ⟨.noComments ∉ flags⟩ source = .ok ts at hts
    simp only [treat, hts, if_pos hflag, true_and]
    rfl
  case unlisted =>
    intro hflag e he
    change tokenize ⟨.noComments ∉ flags⟩ source = .error e at he
    simp only [treat, he]
    rfl
  case printed =>
    intro hflag p hp
    obtain ⟨ts, hts, hparse⟩ := parseSource_eq_ok_iff.mp hp
    change tokenize ⟨.noComments ∉ flags⟩ source = .ok ts at hts
    simp only [treat, hts, if_neg hflag, hparse, true_and]
    exact programOutput_eq flags p
  case unprinted =>
    intro hflag e he
    cases e with
    | lex e =>
      have hts : tokenize ⟨.noComments ∉ flags⟩ source = .error e := parseSource_eq_lex_iff.mp he
      simp only [treat, hts]
      rfl
    | parse e =>
      obtain ⟨ts, hts, hparse⟩ := parseSource_eq_parse_iff.mp he
      change tokenize ⟨.noComments ∉ flags⟩ source = .ok ts at hts
      simp only [treat, hts, if_neg hflag, hparse]
      rfl

/-- With the same flags but for a request for progress reports, a source text is treated with the same exit
code and the same output. -/
theorem treat_louder {flags flags' : List Flag} (h : flags'.filter (· ≠ .verbose) = flags)
    (path source : String) :
    (treat flags' path source).code = (treat flags path source).code ∧
      (treat flags' path source).stdout = (treat flags path source).stdout := by
  have hmem : ∀ f, f ≠ .verbose → (f ∈ flags' ↔ f ∈ flags) := by
    intro f hf
    rw [← h, List.mem_filter]
    simp [hf]
  have hcomments := hmem .noComments (by decide)
  have htokens := hmem .tokens (by decide)
  have hjson := hmem .json (by decide)
  simp only [treat, programOutput, hcomments, htokens, hjson]
  cases tokenize ⟨.noComments ∉ flags⟩ source with
  | error e => exact ⟨rfl, rfl⟩
  | ok ts =>
    by_cases hlist : .tokens ∈ flags
    · simp only [if_pos hlist, and_self]
    · simp only [if_neg hlist]
      cases parse ts <;> exact ⟨rfl, rfl⟩

/-! ## The whole program -/

/-- A command line that asks for something to be done fails unless it names one file, and one that can be
read. Then it does what the library says about the content. A request for progress reports changes neither
the exit code nor the output. -/
theorem command_line_agrees {args : List String} {flags : List Flag} {files : List String}
    (h : invocation args = .run flags files) (folder : Folder) :
    (files.length ≠ 1 → outcome folder args = ⟨1, "", "Usage:\n    idl-parser <file>\n"⟩) ∧
      (∀ path, files = [path] →
        ((folder path).bind String.fromUTF8? = none →
          (outcome folder args).code = 1 ∧ (outcome folder args).stdout = "") ∧
        ∀ source, (folder path).bind String.fromUTF8? = some source →
          Agrees flags path source (outcome folder args)) ∧
      ∀ front back v, args = front ++ back → "--" ∉ front → .verbose ∉ flags →
        v ∈ ["-v", "--verbose"] →
        (outcome folder (front ++ v :: back)).code = (outcome folder args).code ∧
          (outcome folder (front ++ v :: back)).stdout = (outcome folder args).stdout := by
  have hrun : outcome folder args = (Invocation.run flags files).outcome folder := by
    rw [outcome, h]
  refine ⟨?_, ?_, ?_⟩
  · intro hlength
    rw [hrun]
    match files, hlength with
    | [], _ => rfl
    | _ :: _ :: _, _ => rfl
  · rintro path rfl
    rw [hrun, Invocation.outcome]
    refine ⟨fun hnone => ?_, fun source hsource => ?_⟩
    · rw [hnone]
      exact ⟨rfl, rfl⟩
    · rw [hsource]
      exact treat_agrees flags path source
  · rintro front back v rfl hfront hquiet hv
    obtain ⟨flags', hrun', hflags⟩ := exists_run_of_insert h hfront hquiet hv
    rw [hrun, outcome, hrun']
    match files with
    | [] => exact ⟨rfl, rfl⟩
    | _ :: _ :: _ => exact ⟨rfl, rfl⟩
    | [path] =>
      rw [Invocation.outcome, Invocation.outcome]
      cases (folder path).bind String.fromUTF8? with
      | none => exact ⟨rfl, rfl⟩
      | some source => exact treat_louder hflags path source

/-- A file whose content has tokens but is no program: its tokens are listed, with or without reports, and
without the flag the run has no output. -/
theorem command_line_agrees_of_no_program :
    let folder : Folder := fun path => if path = "a.idl" then some "\x7d".toByteArray else none
    let e : ParseError := ⟨⟨.rightBrace, "\x7d", .start⟩, .keyword⟩
    (outcome folder ["--tokens", "a.idl"]).code = 0 ∧
      (outcome folder ["--tokens", "a.idl"]).stdout = "0 RBrace \x7d\n1 End \n" ∧
      (outcome folder ["--tokens", "-v", "a.idl"]).stdout = "0 RBrace \x7d\n1 End \n" ∧
      parseSource {} "\x7d" = .error (.parse e) ∧
      outcome folder ["a.idl", "-v"] =
        ⟨1, "", "Parsing a.idl...\nError: idl::parse::unexpected_token\n"⟩ := by
  intro folder e
  have hread : (folder "a.idl").bind String.fromUTF8? = some "\x7d" := by decide +kernel
  have hts : tokenize {} "\x7d" = .ok [⟨.rightBrace, "\x7d", .start⟩, .endAt ⟨1, 1⟩] := by decide +kernel
  have hparse : parseSource {} "\x7d" = .error (.parse e) := by decide +kernel
  have hlist : invocation (["--tokens"] ++ ["a.idl"]) = .run [.tokens] ["a.idl"] := by decide
  have hprint : invocation ["a.idl", "-v"] = .run [.verbose] ["a.idl"] := by decide
  obtain ⟨-, hagrees, hlouder⟩ := command_line_agrees hlist folder
  obtain ⟨hcode, hstdout⟩ := ((hagrees "a.idl" rfl).2 _ hread).listed (by decide) _ hts
  have hverbose := (hlouder ["--tokens"] ["a.idl"] "-v" rfl (by decide) (by decide) (by decide)).2
  obtain ⟨-, hprinted, -⟩ := command_line_agrees hprint folder
  have hfail := ((hprinted "a.idl" rfl).2 _ hread).unprinted (by decide) _ hparse
  exact ⟨hcode, hstdout, hverbose.trans hstdout, hparse, hfail⟩

end Idl.CommandLine
