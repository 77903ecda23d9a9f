import Idl.CommandLine.Options

/-!
# Asking for progress reports

A request for progress reports may be put anywhere among the options and files of a command line that has
none. The command line then asks for the same with the same files (`exists_run_of_insert`): it is not
refused, and its flags are the same but for the one put in.

What carries this through the arguments is `Steady`: it says of a way to read arguments that it goes the
same way from a line with the additional flag, if it never meets the flag itself. The ways to read single
arguments have it, and it passes to what is put together from them.

Any flags that do not exclude each other are asked for by their names in front of a file
(`invocation_names`).
-/

namespace Idl.CommandLine

namespace Arguments

/-- Whether two lines name the same files and give the same flags but for a request for progress reports,
which only the second may contain. -/
structure Louder (line line' : Arguments) : Prop where
  /-- The files are the same. -/
  files : line'.files = line.files
  /-- The first line has the other flags of the second, in the same order. -/
  flags : line'.flags.filter (· ≠ .verbose) = line.flags

namespace Louder

variable {line line' : Arguments}

/-- A request for progress reports at the end of a line that has none. -/
theorem request (h : .verbose ∉ line.flags) :
    line.Louder { line with flags := line.flags ++ [.verbose] } where
  files := rfl
  flags := by
    have hkeep : ∀ f ∈ line.flags, decide (f ≠ .verbose) = true := by
      intro f hf
      exact decide_eq_true fun heq => h (heq ▸ hf)
    rw [List.filter_append, List.filter_eq_self.mpr hkeep]
    exact List.append_nil _

/-- Another flag is in both lines or in none. -/
theorem mem_flags_iff (h : line.Louder line') {f : Flag} (hf : f ≠ .verbose) :
    f ∈ line'.flags ↔ f ∈ line.flags := by
  rw [← h.flags, List.mem_filter]
  simp [hf]

/-- Another flag is taken in by both lines alike. -/
theorem append (h : line.Louder line') {f : Flag} (hf : f ≠ .verbose) :
    Louder { line with flags := line.flags ++ [f] } { line' with flags := line'.flags ++ [f] } where
  files := h.files
  flags := by
    rw [List.filter_append, h.flags]
    simp [hf]

/-- Files are taken in by both lines alike. -/
theorem append_files (h : line.Louder line') (more : List String) :
    Louder { line with files := line.files ++ more } { line' with files := line'.files ++ more } where
  files := congrArg (· ++ more) h.files
  flags := h.flags

/-- The flags that decide what is printed exclude each other in both lines or in none. -/
theorem finish_eq (h : line.Louder line') {flags : List Flag} {files : List String}
    (hfinish : line.finish = .run flags files) : line'.finish = .run line'.flags files := by
  have hsame : line'.flags.filter (· ∈ [Flag.json, Flag.tokens]) =
      line.flags.filter (· ∈ [Flag.json, Flag.tokens]) := by
    rw [← h.flags, List.filter_filter]
    refine List.filter_congr fun f _ => ?_
    cases f <;> rfl
  unfold finish at hfinish ⊢
  rw [hsame]
  split at hfinish
  · contradiction
  · cases hfinish
    exact congrArg (Invocation.run line'.flags) h.files

end Louder

/-! ## Reading with and without the request -/

/-- What is read in two parts to its end has its first part read to its end. -/
theorem exists_of_bind_eq_ok {first : Except Invocation Arguments}
    {further : Arguments → Except Invocation Arguments} {next : Arguments}
    (h : first.bind further = .ok next) : ∃ middle, first = .ok middle ∧ further middle = .ok next := by
  cases first with
  | error answer => contradiction
  | ok middle => exact ⟨middle, rfl, h⟩

/-- Whether a way to read arguments goes on in the same way if a request for progress reports has been read
that it does not expect. -/
structure Steady (read : Arguments → Except Invocation Arguments) : Prop where
  /-- No flag is dropped. -/
  flags : ∀ {line next}, read line = .ok next → line.flags ⊆ next.flags
  /-- No file is dropped. -/
  files : ∀ {line next}, read line = .ok next → line.files ⊆ next.files
  /-- Where it comes to an end without a request, it does so with one. -/
  louder : ∀ {line line' next}, read line = .ok next → .verbose ∉ next.flags → line.Louder line' →
    ∃ next', read line' = .ok next' ∧ next.Louder next'
  /-- Where it comes to no end, nothing is to be done. -/
  refuses : ∀ line flags files, read line ≠ .error (.run flags files)

namespace Steady

/-- Refusing is steady. -/
theorem error {answer : Invocation} (h : ∀ flags files, answer ≠ .run flags files) :
    Steady fun _ => .error answer where
  flags := by simp
  files := by simp
  louder := by simp
  refuses := fun _ flags files heq => h flags files (Except.error.inj heq)

/-- Reading some files is steady. -/
theorem appendFiles (more : List String) :
    Steady fun line => .ok { line with files := line.files ++ more } where
  flags := by
    rintro line next ⟨⟩
    exact List.Subset.refl _
  files := by
    rintro line next ⟨⟩
    exact List.subset_append_left _ _
  louder := by
    rintro line line' next ⟨⟩ - hlouder
    exact ⟨_, rfl, hlouder.append_files more⟩
  refuses := by simp

/-- Reading nothing is steady. -/
theorem ok : Steady .ok where
  flags := by
    rintro line next ⟨⟩
    exact List.Subset.refl _
  files := by
    rintro line next ⟨⟩
    exact List.Subset.refl _
  louder := by
    rintro line line' next ⟨⟩ - hlouder
    exact ⟨line', rfl, hlouder⟩
  refuses := by simp

/-- Reading one part after the other is steady if that is how each is read. -/
theorem bind {read further : Arguments → Except Invocation Arguments} (hread : Steady read)
    (hfurther : Steady further) : Steady fun line => (read line).bind further where
  flags := by
    intro line next h
    obtain ⟨middle, hfirst, hsecond⟩ := exists_of_bind_eq_ok h
    exact List.Subset.trans (hread.flags hfirst) (hfurther.flags hsecond)
  files := by
    intro line next h
    obtain ⟨middle, hfirst, hsecond⟩ := exists_of_bind_eq_ok h
    exact List.Subset.trans (hread.files hfirst) (hfurther.files hsecond)
  louder := by
    intro line line' next h hquiet hlouder
    obtain ⟨middle, hfirst, hsecond⟩ := exists_of_bind_eq_ok h
    have hquiet₁ : .verbose ∉ middle.flags := fun hmem => hquiet (hfurther.flags hsecond hmem)
    obtain ⟨middle', hfirst', hlouder₁⟩ := hread.louder hfirst hquiet₁ hlouder
    obtain ⟨next', hsecond', hlouder₂⟩ := hfurther.louder hsecond hquiet hlouder₁
    exact ⟨next', by rw [hfirst']; exact hsecond', hlouder₂⟩
  refuses := by
    intro line flags files h
    cases hmiddle : read line with
    | error answer =>
      rw [hmiddle] at h
      exact hread.refuses line flags files (hmiddle.trans h)
    | ok middle =>
      rw [hmiddle] at h
      exact hfurther.refuses middle flags files h

end Steady

/-- The check of the files is passed by a line without blank ones. -/
theorem checkFiles_eq_ok_iff {line next : Arguments} :
    line.checkFiles = .ok next ↔ "" ∉ line.files ∧ line = next := by
  unfold checkFiles
  split <;> simp_all

/-- Checking the files is steady. -/
theorem checkFiles_steady : Steady checkFiles where
  flags := by
    intro line next h
    obtain ⟨-, rfl⟩ := checkFiles_eq_ok_iff.mp h
    exact List.Subset.refl _
  files := by
    intro line next h
    obtain ⟨-, rfl⟩ := checkFiles_eq_ok_iff.mp h
    exact List.Subset.refl _
  louder := by
    intro line line' next h _ hlouder
    obtain ⟨hfiles, rfl⟩ := checkFiles_eq_ok_iff.mp h
    rw [← hlouder.files] at hfiles
    exact ⟨line', checkFiles_eq_ok_iff.mpr ⟨hfiles, rfl⟩, hlouder⟩
  refuses := by
    intro line flags files
    unfold checkFiles
    split <;> simp

/-- Taking in a flag is steady. -/
theorem flag_steady (f : Flag) : Steady fun line =>
    if f ∈ line.flags then .error (.refused (.repeated f))
    else .ok { line with flags := line.flags ++ [f] } where
  flags := by
    intro line next h
    split at h
    · contradiction
    · cases h
      exact List.subset_append_left _ _
  files := by
    intro line next h
    split at h
    · contradiction
    · cases h
      exact List.Subset.refl _
  louder := by
    intro line line' next h hquiet hlouder
    split at h
    · contradiction
    · next hnew =>
      cases h
      have hf : f ≠ .verbose := by
        rintro rfl
        exact hquiet (List.mem_append_right _ (List.mem_singleton_self _))
      have hnew' : f ∉ line'.flags := fun hmem => hnew ((hlouder.mem_flags_iff hf).mp hmem)
      exact ⟨_, if_neg hnew', hlouder.append hf⟩
  refuses := by
    intro line flags files
    split <;> simp

/-- Taking in an option is steady. -/
theorem switch_steady (s : Switch) : Steady (·.switch s) := by
  refine checkFiles_steady.bind ?_
  cases s with
  | help => exact .error (by simp)
  | version => exact .error (by simp)
  | flag f => exact flag_steady f

/-- Taking in a long option is steady. -/
theorem long_steady (cs : List Char) : Steady (·.long cs) := by
  dsimp only [long]
  cases Switch.ofLong? (.ofList (cs.takeWhile (· ≠ '='))) with
  | none => exact .error (by simp)
  | some s =>
    cases cs.dropWhile (· ≠ '=') with
    | nil => exact switch_steady s
    | cons => exact .error (by simp)

/-- Taking in a cluster of short options is steady. -/
theorem short_steady (cs : List Char) : Steady (·.short cs) := by
  induction cs with
  | nil => exact .ok
  | cons c cs ih =>
    unfold short
    cases Switch.ofShort? c with
    | none => exact .error (by simp)
    | some s => exact (switch_steady s).bind ih

/-- Taking in one argument is steady. -/
theorem argument_steady (a : String) : Steady (·.argument a) := by
  unfold argument
  split
  · exact long_steady _
  · exact short_steady _
  · exact .appendFiles [a]

/-- Taking in arguments is steady. -/
theorem arguments_steady (args : List String) : Steady (·.arguments args) := by
  induction args with
  | nil => exact .ok
  | cons a rest ih =>
    unfold arguments
    split
    · exact .appendFiles rest
    · exact (argument_steady a).bind ih

/-! ## The names of flags -/

/-- A flag that has not been given is taken in. -/
theorem switch_flag {line : Arguments} {f : Flag} (hfiles : "" ∉ line.files) (hnew : f ∉ line.flags) :
    line.switch (.flag f) = .ok { line with flags := line.flags ++ [f] } := by
  rw [switch, checkFiles_eq_ok_iff.mpr ⟨hfiles, rfl⟩]
  exact if_neg hnew

/-- The name of a flag is read as the flag. -/
theorem argument_name (line : Arguments) (f : Flag) : line.argument f.name = line.switch (.flag f) := by
  cases f <;> rfl

/-- What does not begin with a dash is read as the name of a file. -/
theorem argument_file (line : Arguments) {a : String} (h : a.toList.head? ≠ some '-') :
    line.argument a = .ok { line with files := line.files ++ [a] } := by
  unfold argument
  split
  · next hlong => exact absurd (congrArg List.head? hlong) h
  · next hshort => exact absurd (congrArg List.head? hshort) h
  · rfl

/-- The names of flags that are all different are read as the flags. -/
theorem arguments_names {line : Arguments} {flags : List Flag} (hfiles : "" ∉ line.files)
    (hnodup : (line.flags ++ flags).Nodup) (back : List String) :
    line.arguments (flags.map Flag.name ++ back) =
      arguments { line with flags := line.flags ++ flags } back := by
  induction flags generalizing line with
  | nil => rw [List.map_nil, List.nil_append, List.append_nil]
  | cons f flags ih =>
    have hname : f.name ≠ "--" := by cases f <;> decide
    have hnew : f ∉ line.flags := fun hmem =>
      (List.nodup_append.mp hnodup).2.2 f hmem f List.mem_cons_self rfl
    rw [List.append_cons] at hnodup ⊢
    rw [List.map_cons, List.cons_append, arguments, if_neg hname, argument_name, switch_flag hfiles hnew]
    exact @ih { line with flags := line.flags ++ [f] } hfiles hnodup

/-- Flags that do not exclude each other are all there is to a line that is finished. -/
theorem finish_eq_run {line : Arguments} (hnodup : line.flags.Nodup)
    (hform : .json ∉ line.flags ∨ .tokens ∉ line.flags) : line.finish = .run line.flags line.files := by
  unfold finish
  split
  · next first second rest hforms =>
    have hne : first ≠ second := by
      have hforms' := hnodup.filter (· ∈ [Flag.json, Flag.tokens])
      rw [hforms] at hforms'
      exact fun heq => (List.nodup_cons.mp hforms').1 (heq ▸ List.mem_cons_self)
    have hmem : ∀ f ∈ [first, second], f ∈ line.flags ∧ f ∈ [Flag.json, Flag.tokens] := by
      intro f hf
      have hfilter : f ∈ line.flags.filter (· ∈ [Flag.json, Flag.tokens]) := by
        rw [hforms]
        exact List.mem_append_left rest hf
      simpa using hfilter
    obtain ⟨hfirst, hform₁⟩ := hmem first List.mem_cons_self
    obtain ⟨hsecond, hform₂⟩ := hmem second (List.mem_cons_of_mem _ List.mem_cons_self)
    simp only [List.mem_cons, List.not_mem_nil, or_false] at hform₁ hform₂
    -- Two different flags of the form are both of them.
    rcases hform₁ with rfl | rfl <;> rcases hform₂ with rfl | rfl
    · exact absurd rfl hne
    · exact absurd hsecond (hform.resolve_left (not_not_intro hfirst))
    · exact absurd hfirst (hform.resolve_left (not_not_intro hsecond))
    · exact absurd rfl hne
  · rfl

/-! ## The request as an argument -/

/-- Arguments in front of two dashes by themselves are taken in before those that follow. -/
theorem arguments_append {front : List String} (h : "--" ∉ front) (back : List String)
    (line : Arguments) :
    line.arguments (front ++ back) = (line.arguments front).bind (·.arguments back) := by
  induction front generalizing line with
  | nil => rfl
  | cons a front ih =>
    have ha : a ≠ "--" := fun heq => h (heq ▸ List.mem_cons_self)
    have hfront : "--" ∉ front := fun hmem => h (List.mem_cons_of_mem a hmem)
    rw [List.cons_append, arguments, arguments, if_neg ha, if_neg ha]
    cases line.argument a with
    | error answer => rfl
    | ok next => exact ih hfront next

/-- Under both of its names the request is taken in by a line that has none yet. -/
theorem argument_verbose {line : Arguments} {v : String} (hv : v ∈ ["-v", "--verbose"])
    (hfiles : "" ∉ line.files) (hquiet : .verbose ∉ line.flags) :
    line.argument v = .ok { line with flags := line.flags ++ [.verbose] } := by
  have hswitch := switch_flag hfiles hquiet
  rw [List.mem_cons, List.mem_singleton] at hv
  rcases hv with rfl | rfl
  · have hshort : line.argument "-v" = (line.switch (.flag .verbose)).bind .ok := rfl
    rw [hshort, hswitch]
    rfl
  · have hlong : line.argument "--verbose" = line.switch (.flag .verbose) := argument_name line .verbose
    rw [hlong, hswitch]

end Arguments

open Arguments

variable {args : List String} {flags : List Flag} {files : List String}

/-- A command line that asks for something to be done has been read to its end. -/
theorem exists_line_of_run (h : invocation args = .run flags files) :
    ∃ line, arguments {} args = .ok line ∧ "" ∉ line.files ∧ line.finish = .run flags files := by
  unfold invocation at h
  split at h
  · next answer hanswer =>
    exact absurd (h ▸ hanswer) (((arguments_steady args).bind checkFiles_steady).refuses {} flags files)
  · next line hline =>
    obtain ⟨next, hread, hcheck⟩ := exists_of_bind_eq_ok hline
    obtain ⟨hfiles, rfl⟩ := checkFiles_eq_ok_iff.mp hcheck
    exact ⟨next, hread, hfiles, h⟩

/-- A line that is finished has its own flags and files. -/
theorem Arguments.eq_of_finish {line : Arguments} (h : line.finish = .run flags files) :
    line.flags = flags ∧ line.files = files := by
  unfold finish at h
  split at h
  · contradiction
  · cases h
    exact ⟨rfl, rfl⟩

/-- The names of flags that do not exclude each other, with the name of a file behind them, ask for the
treatment of the file with these flags. -/
theorem invocation_names (hnodup : flags.Nodup) (hform : .json ∉ flags ∨ .tokens ∉ flags) {path : String}
    (hblank : path ≠ "") (hdash : path.toList.head? ≠ some '-') :
    invocation (flags.map Flag.name ++ [path]) = .run flags [path] := by
  have hpath : path ≠ "--" := by
    rintro rfl
    exact hdash rfl
  have hnames : arguments {} (flags.map Flag.name ++ [path]) = arguments { flags } [path] :=
    @arguments_names {} flags List.not_mem_nil hnodup [path]
  have hread : arguments {} (flags.map Flag.name ++ [path]) = .ok ⟨flags, [path]⟩ := by
    rw [hnames, arguments, if_neg hpath, argument_file _ hdash]
    rfl
  have hcheck : (arguments {} (flags.map Flag.name ++ [path])).bind checkFiles = .ok ⟨flags, [path]⟩ := by
    rw [hread]
    exact checkFiles_eq_ok_iff.mpr ⟨by simpa using hblank.symm, rfl⟩
  rw [invocation, hcheck]
  exact finish_eq_run hnodup hform

/-- All flags but one can be given together. -/
example : invocation ["--json", "--no-comments", "--verbose", "a.idl"] =
    .run [.json, .noComments, .verbose] ["a.idl"] := by decide

/-- A request for progress reports changes a command line in nothing else, wherever it is put among the
options. -/
theorem exists_run_of_insert {front back : List String} {v : String}
    (h : invocation (front ++ back) = .run flags files) (hfront : "--" ∉ front)
    (hquiet : .verbose ∉ flags) (hv : v ∈ ["-v", "--verbose"]) :
    ∃ flags', invocation (front ++ v :: back) = .run flags' files ∧
      flags'.filter (· ≠ .verbose) = flags := by
  obtain ⟨line, hread, hfiles, hfinish⟩ := exists_line_of_run h
  obtain ⟨rfl, rfl⟩ := eq_of_finish hfinish
  rw [arguments_append hfront] at hread
  obtain ⟨middle, hmiddle, hread⟩ := exists_of_bind_eq_ok hread
  have hback := arguments_steady back
  -- In front of the request, nothing is wrong yet and no such request has been made.
  have hfiles₁ : "" ∉ middle.files := fun hmem => hfiles (hback.files hread hmem)
  have hquiet₁ : .verbose ∉ middle.flags := fun hmem => hquiet (hback.flags hread hmem)
  obtain ⟨line', hread', hlouder⟩ := hback.louder hread hquiet (.request hquiet₁)
  have hv' : v ≠ "--" := by
    rintro rfl
    simp at hv
  have harguments : arguments {} (front ++ v :: back) = .ok line' := by
    rw [arguments_append hfront, hmiddle]
    show middle.arguments (v :: back) = .ok line'
    rw [arguments, if_neg hv', argument_verbose hv hfiles₁ hquiet₁]
    exact hread'
  have hcheck : (arguments {} (front ++ v :: back)).bind checkFiles = .ok line' := by
    rw [harguments]
    exact checkFiles_eq_ok_iff.mpr ⟨by rw [hlouder.files]; exact hfiles, rfl⟩
  refine ⟨line'.flags, ?_, hlouder.flags⟩
  rw [invocation, hcheck]
  exact hlouder.finish_eq hfinish

end Idl.CommandLine
