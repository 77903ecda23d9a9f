import Idl.Descent

/-!
# Recursive descent and the automaton

Reading by recursive descent does what the automaton does: the same types and declarations are read from the
same tokens, and the same faults are found at the same tokens (`Descent.type_eq`, `Descent.declaration_eq`).

The automaton does not return from a type that is inside another; it goes on with what stands around it. So a
function is compared with it by what happens next (`Outcome.resume`), and types are followed through whatever
they are read for (`Follows`).
-/

namespace Idl

open Grammar

/-! ## What has no place -/

/-- The kinds of token that go on with a type under way, where these are few. -/
def Grammar.TypeStack.kinds? : TypeStack → Option (List TokenKind)
  | ⟨_, .firstParam⟩ => some [.identifier, .rightParen]
  | ⟨_, .nextParam _⟩ => some [.identifier]
  | ⟨_, .paramColon _ _⟩ => some [.colon]
  | ⟨.argument _ _ :: _, .ended _⟩ | ⟨.param _ _ :: _, .ended _⟩ => some [.comma, .rightParen]
  | _ => none

/-- Tokens of other kinds are stuck. -/
theorem Grammar.TypeStack.step_eq_stuck_of_kinds {limit : Option Nat} {stack : TypeStack} {t : Token}
    {kinds : List TokenKind} (h : stack.kinds? = some kinds) (ht : t.kind ∉ kinds) :
    stack.step limit t = .stuck := by
  unfold kinds? at h
  split at h
  all_goals
    cases h
    try cases hkind : t.kind <;> simp_all only [step, leave, List.mem_cons, true_or, or_true, not_true]

/-- The kinds of token that go on with a declaration where no type is under way. -/
def Grammar.Place.kinds? : Place → Option (List TokenKind)
  | keyword | enumName | enumUnderlying _ | nextEnumerator _ _ _ | recordName _ => some [.identifier]
  | enumColon _ | memberColon _ _ _ => some [.colon]
  | enumOpen _ _ => some [.leftBrace]
  | firstEnumerator _ _ | member _ _ => some [.identifier, .rightBrace]
  | afterEnumerator _ _ _ _ => some [.comma, .rightBrace]
  | recordColon _ _ => some [.colon, .leftBrace]
  | parent _ _ _ | memberType _ _ _ _ => none

/-- Tokens of other kinds have no place. -/
theorem Grammar.Place.step?_eq_none_of_kinds {limit : Option Nat} {place : Place} {t : Token}
    {kinds : List TokenKind} (h : place.kinds? = some kinds) (ht : t.kind ∉ kinds) :
    place.step? limit t = none := by
  unfold kinds? at h
  split at h
  all_goals
    cases h
    try cases hkind : t.kind <;>
      simp_all only [step?, openMembers?, List.mem_cons, true_or, or_true, not_true]

/-- Where one kind of token goes on, tokens of other kinds have no place. -/
theorem Grammar.Place.step?_eq_none_of_only {limit : Option Nat} {place : Place} {t : Token}
    {kind : TokenKind} (h : place.kinds? = some [kind]) (ht : t.kind ≠ kind) : place.step? limit t = none :=
  step?_eq_none_of_kinds h (by simpa using ht)

namespace Descent

/-! ## What happens next -/

section Resume

variable {R α β : Type} {s : Descent}

/-- What becomes of an outcome, given what happens behind what has been read and what happens at a fault. -/
def Outcome.resume (o : Outcome s α) (next : α → List Token → R) (fault : ParseError → List Token → R) :
    R :=
  match o.answer with
  | .ok a => next a o.final.rest
  | .error e => fault e o.final.rest

variable {next : α → List Token → R} {fault : ParseError → List Token → R}

/-- An outcome is what becomes of it if nothing else happens. -/
theorem Outcome.resume_eq (o : Outcome s α) :
    o.resume (fun a rest => (.ok a, rest)) (fun e rest => (.error e, rest)) = (o.answer, o.final.rest) := by
  rw [resume]
  split <;> simp_all

/-- A function that goes on does so with what happens next. -/
theorem Outcome.resume_bind {o : Outcome s β} {onward : β → List Token → R}
    {f : (b : β) → (s' : Descent) → s'.depth = s.depth → s'.rest.length ≤ s.rest.length → Outcome s' α}
    (h : ∀ b s' hdepth hle, s'.stop = s.stop →
      (f b s' hdepth hle).resume next fault = onward b s'.rest) :
    (o.bind f).resume next fault = o.resume onward fault := by
  rw [bind, resume.eq_def o]
  split
  · rename_i b hanswer
    rw [hanswer]
    exact h b o.final _ _ o.advances.stop_eq
  · rename_i e hanswer
    change fault e o.final.rest = _
    rw [hanswer]

/-- What is made of what has been read, is made before what happens next. -/
theorem Outcome.resume_map (f : β → α) (o : Outcome s β) :
    (o.map f).resume next fault = o.resume (fun b => next (f b)) fault :=
  resume_bind fun _ _ _ _ _ => rfl

/-- What happens at the token ahead, if it has the kind and if not. -/
theorem resume_ifToken {kind : TokenKind} {hkind : kind ≠ .endOfInput} {r : R}
    {f : (t : Token) → (s' : Descent) → s'.depth = s.depth → s'.rest.length < s.rest.length → Outcome s' α}
    {otherwise : Outcome s α}
    (hyes : ∀ t ts hlt, s.rest = t :: ts → t.kind = kind →
      (f t { s with rest := ts } rfl hlt).resume next fault = r)
    (hno : (∀ t ∈ s.rest.head?, t.kind ≠ kind) → otherwise.resume next fault = r) :
    (s.ifToken kind hkind f otherwise).resume next fault = r := by
  rw [ifToken]
  split
  · rename_i hrest
    exact hno (by simp [hrest])
  · rename_i t ts hrest
    split
    · rename_i ht
      exact hyes t ts _ hrest ht
    · rename_i ht
      exact hno (by simp [hrest, ht])

/-- What happens at the token ahead, if it is the one that is asked for and if not. -/
theorem resume_expect {kind : TokenKind} {hkind : kind ≠ .endOfInput} {expected : Expectation} {r : R}
    {f : (t : Token) → (s' : Descent) → s'.depth = s.depth → s'.rest.length < s.rest.length → Outcome s' α}
    (hyes : ∀ t ts hlt, s.rest = t :: ts → t.kind = kind →
      (f t { s with rest := ts } rfl hlt).resume next fault = r)
    (hno : (∀ t ∈ s.rest.head?, t.kind ≠ kind) → fault ⟨s.current, expected⟩ s.rest = r) :
    (s.expect kind hkind expected f).resume next fault = r :=
  resume_ifToken hyes hno

end Resume

/-! ## Types -/

/-- What reads types by the automaton, for some purpose. -/
structure Follows {R : Type} (limit : Option Nat) (stop : Token) (run : TypeStack → List Token → R)
    (fault : ParseError → List Token → R) : Prop where
  /-- A token that is read leads on. -/
  next : ∀ {stack stack' t ts}, stack.step limit t = .next stack' → run stack (t :: ts) = run stack' ts
  /-- A token that is stuck is a fault, and so is the end of the input in the middle of a type. -/
  stuck : ∀ {stack ts e}, (∀ t ∈ ts.head?, stack.step limit t = .stuck) → stack.complete? = none →
    (∀ outer, stack.expected limit outer = e) → fault ⟨ts.head?.getD stop, e⟩ ts = run stack ts
  /-- Nothing else matters about a place. -/
  congr : ∀ {stack stack' ts}, (∀ t ∈ ts.head?, stack.step limit t = stack'.step limit t) →
    stack.complete? = stack'.complete? →
    (∀ outer, stack.expected limit outer = stack'.expected limit outer) → run stack ts = run stack' ts

section Types

variable {R : Type} {limit : Option Nat} {stop : Token} {run : TypeStack → List Token → R}
  {fault : ParseError → List Token → R} (hrun : Follows limit stop run fault) {d : Nat}
  {type : (s : Descent) → s.depth = d → Outcome s TypeExpr} {frames : List Frame}

/-- Whether `type` reads what the automaton reads inside the frames. -/
def ReadsInside (run : TypeStack → List Token → R) (fault : ParseError → List Token → R) (stop : Token)
    (type : (s : Descent) → s.depth = d → Outcome s TypeExpr) (frames : List Frame) : Prop :=
  ∀ s hs, s.stop = stop →
    (type s hs).resume (fun a => run ⟨frames, .ended a⟩) fault = run ⟨frames, .start⟩ s.rest

include hrun

/-- Arguments are read up to the parenthesis behind them. -/
theorem arguments_follows (name : String)
    (htype : ∀ before, ReadsInside run fault stop type (.argument name before :: frames)) (s : Descent)
    (hs : s.depth = d) (hstop : s.stop = stop) (before : List TypeExpr) :
    (arguments type s hs before).resume (fun as => run ⟨frames, .ended (.generic name as)⟩) fault =
      run ⟨.argument name before :: frames, .start⟩ s.rest := by
  rw [arguments, ← htype before s hs hstop]
  refine Outcome.resume_bind fun a s₁ hs₁ hle hstop₁ => ?_
  refine resume_ifToken (fun t ts hlt hrest ht => ?_) fun hcomma =>
    resume_expect (fun t ts _ hrest ht => ?_) fun hclose => ?_
  · have hshorter : ts.length < s.rest.length := Nat.lt_of_lt_of_le hlt hle
    refine (arguments_follows name htype { s₁ with rest := ts } _ (hstop₁.trans hstop) _).trans ?_
    rw [hrest]
    exact (hrun.next (by simp only [TypeStack.step, TypeStack.leave, ht])).symm
  · rw [hrest]
    exact (hrun.next (by simp only [TypeStack.step, TypeStack.leave, ht])).symm
  · rw [current, hstop₁, hstop]
    refine hrun.stuck (fun t ht => ?_) rfl fun _ => rfl
    exact TypeStack.step_eq_stuck_of_kinds rfl (by simp [hcomma t ht, hclose t ht])
termination_by s.rest.length
decreasing_by exact hshorter

/-- The arguments of a generic type are read from behind the parenthesis that opens them. -/
theorem typeArguments_follows (name : String)
    (htype : ∀ before, ReadsInside run fault stop type (.argument name before :: frames)) (s : Descent)
    (hs : s.depth = d) (hstop : s.stop = stop) :
    (typeArguments type s hs).resume (fun as => run ⟨frames, .ended (.generic name as)⟩) fault =
      run ⟨frames, .firstArgument name⟩ s.rest := by
  refine resume_ifToken (fun t ts _ hrest ht => ?_) fun hclose => ?_
  · rw [hrest]
    exact (hrun.next (TypeStack.step_firstArgument_close limit frames name ht)).symm
  · rw [arguments_follows hrun name htype s hs hstop]
    refine (hrun.congr (fun t ht => ?_) ?_ fun _ => ?_).symm
    · exact TypeStack.step_firstArgument_enter limit frames name (hclose t ht)
    · rfl
    · rfl

/-- What happens behind the parameters of a function. -/
def afterList (run : TypeStack → List Token → R) (fault : ParseError → List Token → R) (stop : Token)
    (frames : List Frame) (ps : List Param) (rest : List Token) : R :=
  if ∃ t ∈ rest.head?, t.kind = .rightParen then run ⟨frames, .afterParams ps⟩ rest.tail
  else fault ⟨rest.head?.getD stop, .paramsClose⟩ rest

/-- Behind the last parameter, nothing else happens. -/
theorem afterList_eq (before : List Param) (name : String) (a : TypeExpr) {ts : List Token}
    (hcomma : ∀ t ∈ ts.head?, t.kind ≠ .comma) :
    afterList run fault stop frames (⟨name, a⟩ :: before).reverse ts =
      run ⟨.param before name :: frames, .ended a⟩ ts := by
  rw [afterList]
  split
  · rename_i hclose
    obtain ⟨t, ht, hclose⟩ := hclose
    obtain ⟨ts, rfl⟩ := List.head?_eq_some_iff.mp ht
    exact (hrun.next (by simp only [TypeStack.step, TypeStack.leave, hclose])).symm
  · rename_i hclose
    refine hrun.stuck (fun t ht => ?_) rfl fun _ => rfl
    have hclose : t.kind ≠ .rightParen := fun hkind => hclose ⟨t, ht, hkind⟩
    exact TypeStack.step_eq_stuck_of_kinds rfl (by simp [hcomma t ht, hclose])

/-- Parameters are read up to the parenthesis behind them, from a place where a name is asked for. -/
theorem parameters_follows
    (htype : ∀ before name, ReadsInside run fault stop type (.param before name :: frames)) (s : Descent)
    (hs : s.depth = d) (hstop : s.stop = stop) (before : List Param) (place : TypePlace)
    (hword : ∀ t, t.kind = .identifier →
      TypeStack.step limit ⟨frames, place⟩ t = .next ⟨frames, .paramColon before t.text⟩)
    (hstuck : ∀ t ∈ s.rest.head?, t.kind ≠ .identifier → TypeStack.step limit ⟨frames, place⟩ t = .stuck)
    (hcomplete : TypeStack.complete? ⟨frames, place⟩ = none)
    (hexpected : ∀ outer, TypeStack.expected limit outer ⟨frames, place⟩ = .paramName) :
    (parameters type s hs before).resume (afterList run fault stop frames) fault =
      run ⟨frames, place⟩ s.rest := by
  rw [parameters]
  refine resume_expect (fun name ts hlt hrest hname => ?_) fun hname => ?_
  · rw [hrest, hrun.next (hword name hname)]
    refine resume_expect (fun colon ts' hlt' hrest' hcolon => ?_) fun hcolon => ?_
    · have hstep : TypeStack.step limit ⟨frames, .paramColon before name.text⟩ colon =
          .next ⟨.param before name.text :: frames, .start⟩ := by simp only [TypeStack.step, hcolon]
      change ts = _ at hrest'
      rw [hrest', hrun.next hstep, ← htype before name.text { s with rest := ts' } hs hstop]
      refine Outcome.resume_bind fun a s₃ hs₃ hle₃ hstop₃ => ?_
      refine resume_ifToken (fun comma ts'' hlt'' hrest'' hcomma => ?_)
        (afterList_eq hrun before name.text a)
      have hshorter : ts''.length < s.rest.length :=
        Nat.lt_trans (Nat.lt_of_lt_of_le hlt'' hle₃) (Nat.lt_trans hlt' hlt)
      have hstep : TypeStack.step limit ⟨.param before name.text :: frames, .ended a⟩ comma =
          .next ⟨frames, .nextParam (⟨name.text, a⟩ :: before)⟩ := by
        simp only [TypeStack.step, TypeStack.leave, hcomma]
      rw [hrest'', hrun.next hstep]
      refine parameters_follows htype { s₃ with rest := ts'' } _ (hstop₃.trans hstop) _ (.nextParam _)
        (fun t ht => ?_) (fun t _ ht => ?_) rfl fun _ => rfl
      · simp only [TypeStack.step, ht]
      · exact TypeStack.step_eq_stuck_of_kinds rfl (by simpa using ht)
    · change fault ⟨ts.head?.getD s.stop, .paramColon⟩ ts = _
      rw [hstop]
      refine hrun.stuck (fun t ht => ?_) rfl fun _ => rfl
      exact TypeStack.step_eq_stuck_of_kinds rfl (by simpa using hcolon t ht)
  · rw [current, hstop]
    exact hrun.stuck (fun t ht => hstuck t ht (hname t ht)) hcomplete hexpected
termination_by s.rest.length
decreasing_by exact hshorter

/-- A function type is read from behind the parenthesis that opens its parameters. -/
theorem functionType_follows
    (hparam : ∀ before name, ReadsInside run fault stop type (.param before name :: frames))
    (hresult : ∀ ps, ReadsInside run fault stop type (.result ps :: frames)) (s : Descent) (hs : s.depth = d)
    (hstop : s.stop = stop) :
    (functionType type s hs).resume (fun a => run ⟨frames, .ended a⟩) fault =
      run ⟨frames, .firstParam⟩ s.rest := by
  have hlist : (parameterList type s hs).resume (afterList run fault stop frames) fault =
      run ⟨frames, .firstParam⟩ s.rest := by
    rw [parameterList]
    split
    · rename_i hclose
      obtain ⟨t, ht, hkind⟩ := ahead_iff.mp hclose
      obtain ⟨ts, hrest⟩ := List.head?_eq_some_iff.mp ht
      change afterList run fault stop frames [] s.rest = _
      rw [afterList, if_pos ⟨t, ht, hkind⟩, hrest]
      exact (hrun.next (by simp only [TypeStack.step, hkind])).symm
    · rename_i hclose
      refine parameters_follows hrun hparam s hs hstop [] .firstParam (fun t ht => ?_)
        (fun t ht hname => ?_) rfl fun _ => rfl
      · simp only [TypeStack.step, ht]
      · have hclose : t.kind ≠ .rightParen := fun hkind => hclose (ahead_iff.mpr ⟨t, ht, hkind⟩)
        exact TypeStack.step_eq_stuck_of_kinds rfl (by simp [hname, hclose])
  rw [functionType, ← hlist]
  refine Outcome.resume_bind fun ps s₁ hs₁ _ hstop₁ => ?_
  refine resume_expect (fun t ts _ hrest ht => ?_) fun hclose => ?_
  · have hafter : afterList run fault stop frames ps s₁.rest = run ⟨frames, .afterParams ps⟩ ts := by
      rw [hrest]
      exact if_pos ⟨t, rfl, ht⟩
    rw [hafter]
    refine resume_ifToken (fun t ts' _ hrest' ht => ?_) fun harrow => ?_
    · change ts = _ at hrest'
      rw [hrest', hrun.next (TypeStack.step_afterParams_arrow limit frames ps ht),
        ← hresult ps { s₁ with rest := ts' } (hs₁.trans hs) (hstop₁.trans hstop), Outcome.resume_map]
      congr 1
      funext r rest
      refine hrun.congr (fun _ _ => ?_) ?_ fun _ => ?_ <;> rfl
    · refine (hrun.congr (fun t ht => ?_) ?_ fun _ => ?_).symm
      · exact TypeStack.step_afterParams_leave limit frames ps (harrow t ht)
      · rfl
      · rfl
  · have hnone : ¬ ∃ t ∈ s₁.rest.head?, t.kind = .rightParen := by
      rintro ⟨t, ht, hkind⟩
      exact hclose t ht hkind
    rw [afterList, if_neg hnone, current, hstop₁, hstop]

/-- The expression of a type is read where it is not one too many. -/
theorem typeExpr_follows (hroom : limitReached limit frames.length = false)
    (hargument : ∀ name before, ReadsInside run fault stop type (.argument name before :: frames))
    (hparam : ∀ before name, ReadsInside run fault stop type (.param before name :: frames))
    (hresult : ∀ ps, ReadsInside run fault stop type (.result ps :: frames)) (s : Descent) (hs : s.depth = d)
    (hstop : s.stop = stop) :
    (typeExpr type s hs).resume (fun a => run ⟨frames, .ended a⟩) fault = run ⟨frames, .start⟩ s.rest := by
  rw [typeExpr]
  refine resume_ifToken (fun name ts _ hrest hname => ?_) fun hname =>
    resume_expect (fun t ts _ hrest hopen => ?_) fun hopen => ?_
  · have hstep : TypeStack.step limit ⟨frames, .start⟩ name = .next ⟨frames, .name name.text⟩ := by
      simp [TypeStack.step, TypeStack.enter, hroom, hname]
    rw [hrest, hrun.next hstep]
    refine resume_ifToken (fun t ts' _ hrest' ht => ?_) fun hopen => ?_
    · change ts = _ at hrest'
      rw [hrest', hrun.next (TypeStack.step_name_open limit frames name.text ht), Outcome.resume_map]
      exact typeArguments_follows hrun name.text (hargument name.text) { s with rest := ts' } hs hstop
    · refine (hrun.congr (fun t ht => ?_) ?_ fun _ => ?_).symm
      · exact TypeStack.step_name_leave limit frames name.text (hopen t ht)
      · rfl
      · rfl
  · have hstep : TypeStack.step limit ⟨frames, .start⟩ t = .next ⟨frames, .firstParam⟩ := by
      simp [TypeStack.step, TypeStack.enter, hroom, hopen]
    rw [hrest, hrun.next hstep]
    exact functionType_follows hrun hparam hresult { s with rest := ts } hs hstop
  · rw [current, hstop]
    refine hrun.stuck (fun t ht => ?_) rfl fun _ => ?_
    · have hname := hname t ht
      have hopen := hopen t ht
      cases hkind : t.kind <;> simp_all [TypeStack.step, TypeStack.enter]
    · simp [TypeStack.expected, TypeStack.expectedEntry, hroom]

end Types

/-- A type is read as the automaton reads it, inside as many others as are open. -/
theorem type_follows {R : Type} {depth : Nat} {stop : Token} {run : TypeStack → List Token → R}
    {fault : ParseError → List Token → R} (hrun : Follows (some (maxTypeDepth - depth)) stop run fault)
    (frames : List Frame) (s : Descent) (hstop : s.stop = stop) (hdepth : s.depth = depth + frames.length) :
    s.type.resume (fun a => run ⟨frames, .ended a⟩) fault = run ⟨frames, .start⟩ s.rest := by
  rw [type]
  split
  · rename_i hlt
    have hroom : limitReached (some (maxTypeDepth - depth)) frames.length = false := by
      simp [limitReached]
      omega
    -- Inside a type, one more type is open.
    have hinside : ∀ frame, ReadsInside run fault stop (fun s' (_ : s'.depth = s.depth + 1) => type s')
        (frame :: frames) := by
      intro frame s' hs' hstop'
      have hdeeper : maxTypeDepth - s'.depth < maxTypeDepth - s.depth := by omega
      refine type_follows hrun (frame :: frames) s' hstop' ?_
      rw [List.length_cons]
      omega
    exact typeExpr_follows hrun hroom (fun _ _ => hinside _) (fun _ _ => hinside _) (fun _ => hinside _)
      s.enter rfl hstop
  · rename_i hlt
    have hfull : limitReached (some (maxTypeDepth - depth)) frames.length = true := by
      simp [limitReached]
      omega
    change fault ⟨s.current, .shallowerType⟩ s.rest = _
    rw [current, hstop]
    refine hrun.stuck (fun t _ => ?_) rfl fun _ => ?_
    · simp [TypeStack.step, TypeStack.enter, hfull]
    · simp [TypeStack.expected, TypeStack.expectedEntry, hfull]
termination_by maxTypeDepth - s.depth
decreasing_by exact hdeeper

/-- By themselves, types are read by the automaton. -/
theorem follows_type (limit : Option Nat) (stop : Token) :
    Follows limit stop (runType limit stop) fun e rest => (.error e, rest) where
  next h := by rw [runType, h]
  stuck {stack ts e} hstuck hcomplete hexpected := by
    cases ts with
    | nil => rw [runType, hcomplete, hexpected]; rfl
    | cons t ts => rw [runType, hstuck t rfl, hexpected]; rfl
  congr {stack stack' ts} hstep hcomplete hexpected := by
    cases ts with
    | nil => rw [runType, runType, hcomplete, hexpected]
    | cons t ts => rw [runType, runType, hstep t rfl, hexpected]

/-! ## Declarations -/

section Runs

variable {limit : Option Nat} {stop : Token} {place : Place} {t : Token} {ts : List Token}

/-- A token that has its place leads on. -/
theorem runDeclaration_next {place' : Place} (h : place.step? limit t = some (.next place')) :
    runDeclaration limit stop place (t :: ts) = runDeclaration limit stop place' ts := by
  rw [runDeclaration, h]

/-- The last token of a declaration ends it. -/
theorem runDeclaration_ended {d : Declaration} (h : place.step? limit t = some (.ended d)) :
    runDeclaration limit stop place (t :: ts) = (.ok d, ts) := by
  rw [runDeclaration, h]

/-- A token without a place is a fault, and so is the end of the input. -/
theorem runDeclaration_stuck (h : ∀ t ∈ ts.head?, place.step? limit t = none) :
    runDeclaration limit stop place ts = (.error ⟨ts.head?.getD stop, place.expected limit⟩, ts) := by
  cases ts with
  | nil => rw [runDeclaration]; rfl
  | cons t ts => rw [runDeclaration, h t rfl]; rfl

/-- In a declaration, types are read by the automaton where the places are those of a type. -/
theorem follows_place {place : TypeStack → Place} {after : TypeExpr → Token → Option Step}
    {outer : Expectation}
    (hstep : ∀ stack t, (place stack).step? limit t =
      match stack.step limit t with
      | .next stack => some (.next (place stack))
      | .over type => after type t
      | .stuck => none)
    (hexpected : ∀ stack, (place stack).expected limit = stack.expected limit outer) (stop : Token) :
    Follows limit stop (fun stack => runDeclaration limit stop (place stack))
      fun e rest => (.error e, rest) where
  next h := runDeclaration_next (by rw [hstep, h])
  stuck hstuck _ he := by
    rw [runDeclaration_stuck fun t ht => by rw [hstep, hstuck t ht], hexpected, he]
  congr {stack stack' ts} hsame _ he := by
    cases ts with
    | nil => rw [runDeclaration, runDeclaration, hexpected, hexpected, he]
    | cons t ts => rw [runDeclaration, runDeclaration, hstep, hstep, hsame t rfl, hexpected, hexpected, he]

end Runs

section Declarations

variable {limit : Option Nat} {place : Place} {α : Type}
  {next : α → List Token → Except ParseError Declaration × List Token}

/-- A token that is asked for is read as the automaton reads it. -/
theorem expect_follows {s : Descent} {kind : TokenKind} {hkind : kind ≠ .endOfInput} {expected : Expectation}
    {f : (t : Token) → (s' : Descent) → s'.depth = s.depth → s'.rest.length < s.rest.length → Outcome s' α}
    (hexpected : place.expected limit = expected)
    (hstuck : ∀ t ∈ s.rest.head?, t.kind ≠ kind → place.step? limit t = none)
    (hnext : ∀ t ts hlt, t ∈ s.rest.head? → t.kind = kind → ∃ place',
      place.step? limit t = some (.next place') ∧
        (f t { s with rest := ts } rfl hlt).resume next (fun e rest => (.error e, rest)) =
          runDeclaration limit s.stop place' ts) :
    (s.expect kind hkind expected f).resume next (fun e rest => (.error e, rest)) =
      runDeclaration limit s.stop place s.rest := by
  refine resume_expect (fun t ts hlt hrest ht => ?_) fun hno => ?_
  · obtain ⟨place', hstep, hresume⟩ := hnext t ts hlt (by rw [hrest]; rfl) ht
    rw [hresume, hrest, runDeclaration_next hstep]
  · rw [runDeclaration_stuck fun t ht => hstuck t ht (hno t ht), hexpected]
    rfl

/-- Enumerators are read as the automaton reads them, from a place where a name is asked for. -/
theorem enumerators_follows (name underlying : String) (s : Descent) (before : List String) (place : Place)
    (hexpected : place.expected limit = .enumerator)
    (hword : ∀ t, t.kind = .identifier →
      place.step? limit t = some (.next (.afterEnumerator name underlying before t.text)))
    (hstuck : ∀ t ∈ s.rest.head?, t.kind ≠ .identifier → place.step? limit t = none) :
    (enumerators s before).resume (fun ns rest => (.ok (.enum name (.named underlying) ns), rest))
      (fun e rest => (.error e, rest)) = runDeclaration limit s.stop place s.rest := by
  rw [enumerators]
  refine expect_follows hexpected hstuck fun word ts hlt _ hname => ⟨_, hword word hname, ?_⟩
  refine resume_ifToken (fun t ts' hlt' hrest ht => ?_) fun hcomma => ?_
  · have hshorter : ts'.length < s.rest.length := Nat.lt_trans hlt' hlt
    have hstep : Place.step? limit (.afterEnumerator name underlying before word.text) t =
        some (.next (.nextEnumerator name underlying (word.text :: before))) := by
      simp only [Place.step?, ht]
    change ts = _ at hrest
    rw [hrest, runDeclaration_next hstep]
    refine enumerators_follows name underlying { s with rest := ts' } _ (.nextEnumerator _ _ _)
      rfl (fun t ht => ?_) fun t _ ht => ?_
    · simp only [Place.step?, ht]
    · exact Place.step?_eq_none_of_only rfl ht
  · refine resume_expect (fun t ts' _ hrest ht => ?_) fun hclose => ?_
    · change ts = _ at hrest
      rw [hrest]
      exact (runDeclaration_ended (by simp only [Place.step?, ht])).symm
    · have hstuck : ∀ t ∈ ts.head?,
          Place.step? limit (.afterEnumerator name underlying before word.text) t = none := by
        intro t ht
        exact Place.step?_eq_none_of_kinds rfl (by simp [hcomma t ht, hclose t ht])
      rw [runDeclaration_stuck hstuck]
      rfl
termination_by s.rest.length
decreasing_by exact hshorter

/-- An enumeration is read as the automaton reads it. -/
theorem enumeration_follows (s : Descent) :
    (enumeration s).resume (fun d rest => (.ok d, rest)) (fun e rest => (.error e, rest)) =
      runDeclaration limit s.stop .enumName s.rest := by
  rw [enumeration]
  refine expect_follows rfl (fun _ _ => Place.step?_eq_none_of_only rfl) fun name ts _ _ ht =>
    ⟨.enumColon name.text, ?_, ?_⟩
  · simp only [Place.step?, ht]
  refine expect_follows rfl (fun _ _ => Place.step?_eq_none_of_only rfl) fun colon ts _ _ ht =>
    ⟨.enumUnderlying name.text, ?_, ?_⟩
  · simp only [Place.step?, ht]
  refine expect_follows rfl (fun _ _ => Place.step?_eq_none_of_only rfl) fun underlying ts _ _ ht =>
    ⟨.enumOpen name.text underlying.text, ?_, ?_⟩
  · simp only [Place.step?, ht]
  refine expect_follows rfl (fun _ _ => Place.step?_eq_none_of_only rfl) fun brace ts _ _ ht =>
    ⟨.firstEnumerator name.text underlying.text, ?_, ?_⟩
  · simp only [Place.step?, ht]
  rw [Outcome.resume_map]
  refine resume_ifToken (fun t ts' _ hrest ht => ?_) fun hclose => ?_
  · change ts = _ at hrest
    rw [hrest]
    exact (runDeclaration_ended (by simp only [Place.step?, ht])).symm
  · refine enumerators_follows name.text underlying.text { s with rest := ts } [] (.firstEnumerator _ _)
      rfl (fun t ht => ?_) fun t ht hname => ?_
    · simp only [Place.step?, ht]
    · exact Place.step?_eq_none_of_kinds rfl (by simp [hname, hclose t ht])

/-- A type in a declaration is read as the automaton reads it, up to where it ends. -/
theorem type_follows_place {s : Descent} (place : TypeStack → Place)
    (after : TypeExpr → Token → Option Step) {outer : Expectation}
    {f : (a : TypeExpr) → (s' : Descent) → s'.depth = s.depth → s'.rest.length ≤ s.rest.length →
      Outcome s' α}
    (hstep : ∀ stack t, (place stack).step? s.room t =
      match stack.step s.room t with
      | .next stack => some (.next (place stack))
      | .over type => after type t
      | .stuck => none)
    (hexpected : ∀ stack, (place stack).expected s.room = stack.expected s.room outer)
    (hnext : ∀ a s' hs' hle, s'.room = s.room →
      (f a s' hs' hle).resume next (fun e rest => (.error e, rest)) =
        runDeclaration s'.room s'.stop (place ⟨[], .ended a⟩) s'.rest) :
    (s.type.bind f).resume next (fun e rest => (.error e, rest)) =
      runDeclaration s.room s.stop (place .start) s.rest := by
  have htype := type_follows (follows_place hstep hexpected s.stop) [] s rfl rfl
  refine Eq.trans (Outcome.resume_bind fun a s' hs' hle hstop => ?_) htype
  have hroom : s'.room = s.room := by rw [Parser.room, Parser.room, hs']
  rw [hnext a s' hs' hle hroom, hroom, hstop]

/-- Members are read as the automaton reads them. -/
theorem members_follows (head : RecordHead) (s : Descent) (before : List Member) :
    (members s before).resume (fun ms rest => (.ok (.record head.form head.name head.parent ms), rest))
      (fun e rest => (.error e, rest)) = runDeclaration s.room s.stop (.member head before) s.rest := by
  rw [members]
  refine resume_ifToken (fun t ts _ hrest ht => ?_) fun hclose => ?_
  · rw [hrest]
    exact (runDeclaration_ended (by simp only [Place.step?, ht])).symm
  rw [member]
  refine expect_follows rfl (fun t ht hname => ?_) fun name ts hlt _ ht =>
    ⟨.memberColon head before name.text, ?_, ?_⟩
  · exact Place.step?_eq_none_of_kinds rfl (by simp [hname, hclose t ht])
  · simp only [Place.step?, ht]
  refine expect_follows rfl (fun _ _ => Place.step?_eq_none_of_only rfl) fun colon ts' hlt' _ ht =>
    ⟨.memberType head before name.text .start, ?_, ?_⟩
  · simp only [Place.step?, ht]
  refine type_follows_place (s := { s with rest := ts' }) (.memberType head before name.text)
    (fun a => Place.endMember? head before ⟨name.text, a⟩) (fun _ _ => rfl)
    (fun _ => rfl) fun a s₃ hs₃ hle₃ hroom₃ => ?_
  refine expect_follows rfl (fun t _ ht => ?_) fun semicolon ts'' hlt'' _ ht =>
    ⟨.member head (⟨name.text, a⟩ :: before), ?_, ?_⟩
  · cases hkind : t.kind <;> simp_all [Place.step?, TypeStack.step, TypeStack.leave, Place.endMember?]
  · simp only [Place.step?, TypeStack.step, TypeStack.leave, Place.endMember?, ht]
  have hshorter : ts''.length < s.rest.length :=
    Nat.lt_trans (Nat.lt_of_lt_of_le hlt'' hle₃) (Nat.lt_trans hlt' hlt)
  exact members_follows head { s₃ with rest := ts'' } (⟨name.text, a⟩ :: before)
termination_by s.rest.length
decreasing_by exact hshorter

/-- The body of a record is read as the automaton reads it, from a place where only its brace is left. -/
theorem body_follows (head : RecordHead) (s : Descent) (place : Place)
    (hexpected : place.expected s.room = .recordOpen)
    (hstep : ∀ t ∈ s.rest.head?, place.step? s.room t = Place.openMembers? head t) :
    (body s head.form head.name head.parent).resume (fun d rest => (.ok d, rest))
      (fun e rest => (.error e, rest)) = runDeclaration s.room s.stop place s.rest := by
  rw [body]
  refine expect_follows hexpected (fun t ht hkind => ?_) fun t ts _ ht hkind => ⟨.member head [], ?_, ?_⟩
  · rw [hstep t ht]
    cases hkind : t.kind <;> simp_all [Place.openMembers?]
  · rw [hstep t ht]
    simp only [Place.openMembers?, hkind]
  rw [Outcome.resume_map]
  exact members_follows head { s with rest := ts } []

/-- A record is read as the automaton reads it. -/
theorem recordOf_follows (form : RecordForm) (s : Descent) :
    (recordOf s form).resume (fun d rest => (.ok d, rest)) (fun e rest => (.error e, rest)) =
      runDeclaration s.room s.stop (.recordName form) s.rest := by
  rw [recordOf]
  refine expect_follows rfl (fun _ _ => Place.step?_eq_none_of_only rfl) fun name ts _ _ ht =>
    ⟨.recordColon form name.text, ?_, ?_⟩
  · simp only [Place.step?, ht]
  refine resume_ifToken (fun t ts' _ hrest ht => ?_) fun hcolon => ?_
  · change ts = _ at hrest
    have hstep : Place.step? s.room (.recordColon form name.text) t =
        some (.next (.parent form name.text .start)) := by simp only [Place.step?, ht]
    rw [hrest, runDeclaration_next hstep]
    refine type_follows_place (s := { s with rest := ts' }) (.parent form name.text)
      (fun a => Place.openMembers? ⟨form, name.text, some a⟩) (fun _ _ => rfl)
      (fun _ => rfl) fun a s₃ _ _ _ => ?_
    refine body_follows ⟨form, name.text, some a⟩ s₃ _ rfl fun t _ => ?_
    simp only [Place.step?, TypeStack.step, TypeStack.leave]
  · refine body_follows ⟨form, name.text, none⟩ { s with rest := ts } _ rfl fun t ht => ?_
    have hcolon := hcolon t ht
    cases hkind : t.kind <;> simp_all [Place.step?]

/-- A word in front of a declaration leads to the place of its keyword. -/
theorem step?_keyword {t : Token} (h : t.kind = .identifier) :
    Place.keyword.step? limit t = (Place.ofKeyword? t.text).map .next := by
  simp only [Place.step?, h]

/-- A declaration is read as the automaton reads it. -/
theorem declaration_follows (s : Descent) :
    s.declaration.resume (fun d rest => (.ok d, rest)) (fun e rest => (.error e, rest)) =
      runDeclaration s.room s.stop .keyword s.rest := by
  have hcurrent : ∀ t ∈ s.rest.head?, s.current = t := by
    intro t ht
    rw [current, ht]
    rfl
  have hstuck : ∀ t ∈ s.rest.head?, t.kind ≠ .identifier → Place.keyword.step? s.room t = none :=
    fun t _ => Place.step?_eq_none_of_only rfl
  rw [declaration]
  split
  · rename_i henum
    refine expect_follows rfl hstuck fun t ts _ ht hkind => ⟨.enumName, ?_, ?_⟩
    · have hword : t.text = "enum" := by
        rw [hcurrent t ht, Token.isWord, Bool.and_eq_true] at henum
        exact of_decide_eq_true henum.2
      rw [step?_keyword hkind, Place.ofKeyword?, if_pos hword]
      rfl
    · exact enumeration_follows { s with rest := ts }
  · rename_i henum
    have hword : ∀ t ∈ s.rest.head?, t.kind = .identifier → t.text ≠ "enum" := by
      intro t ht hkind htext
      rw [hcurrent t ht] at henum
      exact henum (by simp [Token.isWord, hkind, htext])
    split
    · rename_i form hform
      refine expect_follows rfl hstuck fun t ts _ ht hkind => ⟨.recordName form, ?_, ?_⟩
      · rw [hcurrent t ht] at hform
        rw [step?_keyword hkind, Place.ofKeyword?, if_neg (hword t ht hkind), hform]
        rfl
      · exact recordOf_follows form { s with rest := ts }
    · rename_i hform
      have hnone : ∀ t ∈ s.rest.head?, Place.keyword.step? s.room t = none := by
        intro t ht
        by_cases hkind : t.kind = .identifier
        · rw [hcurrent t ht] at hform
          rw [step?_keyword hkind, Place.ofKeyword?, if_neg (hword t ht hkind), hform]
          rfl
        · exact hstuck t ht hkind
      rw [runDeclaration_stuck hnone]
      rfl

end Declarations

/-! ## The two ways of reading -/

/-- Only the tokens that are read are gone from the parser. -/
theorem Advances.toParser_eq {s s' : Descent} {read : List Token} (h : s.Advances read s') :
    s'.toParser = { s.toParser with rest := s'.rest } := by
  obtain ⟨⟨rest, stop, depth⟩, _, _, _⟩ := s'
  obtain rfl : stop = s.stop := h.stop_eq
  obtain rfl : depth = s.depth := h.depth_eq
  rfl

/-- By recursive descent, the same type is read from the same tokens as by the automaton. -/
theorem type_eq (p : Parser) :
    ((start p).type.answer, (start p).type.final.toParser) = p.typeExpr := by
  have hended : (fun a => runType p.room p.stop ⟨[], .ended a⟩) = fun a rest => (.ok a, rest) := by
    funext a rest
    cases rest <;> rfl
  have hfollows := type_follows (follows_type p.room p.stop) [] (start p) rfl rfl
  have hrun : ((start p).type.answer, (start p).type.final.rest) = runType p.room p.stop .start p.rest := by
    rw [hended, Outcome.resume_eq] at hfollows
    exact hfollows
  rw [Parser.typeExpr, ← hrun, (start p).type.advances.toParser_eq]
  rfl

/-- By recursive descent, the same declaration is read from the same tokens as by the automaton. -/
theorem declaration_eq (p : Parser) :
    ((start p).declaration.answer, (start p).declaration.final.toParser) = p.declaration := by
  have hrun : ((start p).declaration.answer, (start p).declaration.final.rest) =
      runDeclaration p.room p.stop .keyword p.rest :=
    (start p).declaration.resume_eq.symm.trans (declaration_follows (start p))
  rw [Parser.declaration, ← hrun, (start p).declaration.advances.toParser_eq]
  rfl

end Descent

end Idl
