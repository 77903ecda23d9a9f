import Idl.Parser

/-!
# Reading by recursive descent

Types and declarations can also be read by functions that call each other, one for each construct. Such a
function stands where a parser stands, and counts the types that are open: `depth` goes up in front of the
expression of a type and down again behind it, whether there was a type or a fault. A type is refused where it
would be one too many, and this is what ends the recursion.

A `Descent` also remembers how far its counters have gone. What each function leaves of its `Descent` is part
of what it returns (`Outcome`), so it holds of every function that is put together from others.
-/

namespace Idl

open Grammar

/-- A parser in the middle of its work. -/
structure Descent extends Parser where
  /-- The greatest depth so far. -/
  deepest : Nat
  /-- The number of calls under way that read the expression of a type. -/
  active : Nat
  /-- The greatest number of such calls so far. -/
  mostActive : Nat

namespace Descent

/-- A parser before any work. -/
def start (p : Parser) : Descent := { p with deepest := p.depth, active := 0, mostActive := 0 }

/-- The token that is ahead, or the one that stands for the end of the input. -/
def current (s : Descent) : Token := s.rest.head?.getD s.stop

/-- Whether the token ahead has the kind. -/
def ahead (s : Descent) (kind : TokenKind) : Bool := s.rest.head?.any (·.kind = kind)

/-- Whether the token ahead has the kind, told from the token. -/
theorem ahead_iff {s : Descent} {kind : TokenKind} :
    s.ahead kind = true ↔ ∃ t ∈ s.rest.head?, t.kind = kind := by
  simp [ahead, Option.any_eq_true]

/-- Calls the function that reads the expression of a type. -/
def enter (s : Descent) : Descent :=
  { s with
    depth := s.depth + 1
    deepest := max s.deepest (s.depth + 1)
    active := s.active + 1
    mostActive := max s.mostActive (s.active + 1) }

/-- Returns from it. -/
def leave (s : Descent) : Descent := { s with depth := s.depth - 1, active := s.active - 1 }

/-- What holds behind some tokens that have been read. -/
structure Advances (s : Descent) (read : List Token) (s' : Descent) : Prop where
  /-- They were ahead. -/
  rest_eq : s.rest = read ++ s'.rest
  /-- None of them ends the input. -/
  no_end : ∀ t ∈ read, t.kind ≠ .endOfInput
  /-- The end of the input is where it was. -/
  stop_eq : s'.stop = s.stop
  /-- The depth is what it was. -/
  depth_eq : s'.depth = s.depth
  /-- The calls under way are those that there were. -/
  active_eq : s'.active = s.active
  /-- The depth has gone no further than it may. -/
  deepest_le : s'.deepest ≤ max s.deepest maxTypeDepth
  /-- There have been no more calls at once than the depth allows. -/
  mostActive_le : s'.mostActive ≤ max s.mostActive (s.active + (maxTypeDepth - s.depth))

namespace Advances

variable {s s' s'' : Descent} {read read' : List Token}

/-- Nothing is read. -/
theorem refl (s : Descent) : s.Advances [] s where
  rest_eq := rfl
  no_end := nofun
  stop_eq := rfl
  depth_eq := rfl
  active_eq := rfl
  deepest_le := Nat.le_max_left _ _
  mostActive_le := Nat.le_max_left _ _

/-- A token is read. -/
theorem token {t : Token} {ts : List Token} (h : s.rest = t :: ts) (hkind : t.kind ≠ .endOfInput) :
    s.Advances [t] { s with rest := ts } where
  rest_eq := h
  no_end := List.forall_mem_singleton.mpr hkind
  stop_eq := rfl
  depth_eq := rfl
  active_eq := rfl
  deepest_le := Nat.le_max_left _ _
  mostActive_le := Nat.le_max_left _ _

/-- Tokens are read, and then others. -/
theorem trans (h : s.Advances read s') (h' : s'.Advances read' s'') : s.Advances (read ++ read') s'' where
  rest_eq := by rw [h.rest_eq, h'.rest_eq, List.append_assoc]
  no_end := List.forall_mem_append.mpr ⟨h.no_end, h'.no_end⟩
  stop_eq := h'.stop_eq.trans h.stop_eq
  depth_eq := h'.depth_eq.trans h.depth_eq
  active_eq := h'.active_eq.trans h.active_eq
  deepest_le := by
    have hle := h.deepest_le
    have hle' := h'.deepest_le
    omega
  mostActive_le := by
    have hle := h.mostActive_le
    have hle' := h'.mostActive_le
    rw [h.active_eq, h.depth_eq] at hle'
    omega

/-- The expression of a type is read where it is not one too many. -/
theorem nest (hdepth : s.depth < maxTypeDepth) (h : s.enter.Advances read s') :
    s.Advances read s'.leave where
  rest_eq := h.rest_eq
  no_end := h.no_end
  stop_eq := h.stop_eq
  depth_eq := Nat.sub_eq_of_eq_add h.depth_eq
  active_eq := Nat.sub_eq_of_eq_add h.active_eq
  deepest_le := by
    have hle : s'.deepest ≤ max (max s.deepest (s.depth + 1)) maxTypeDepth := h.deepest_le
    change s'.deepest ≤ max s.deepest maxTypeDepth
    omega
  mostActive_le := by
    have hle : s'.mostActive ≤
        max (max s.mostActive (s.active + 1)) (s.active + 1 + (maxTypeDepth - (s.depth + 1))) :=
      h.mostActive_le
    change s'.mostActive ≤ max s.mostActive (s.active + (maxTypeDepth - s.depth))
    omega

/-- There are no more tokens ahead than before. -/
theorem length_le (h : s.Advances read s') : s'.rest.length ≤ s.rest.length := by
  rw [h.rest_eq, List.length_append]
  exact Nat.le_add_left _ _

end Advances

/-- What a function returns that is called at `s`. -/
structure Outcome (s : Descent) (α : Type) where
  /-- What has been read, or the fault. -/
  answer : Except ParseError α
  /-- Where the function has got to. -/
  final : Descent
  /-- The tokens that have been read. -/
  read : List Token
  /-- What holds behind them. -/
  advances : s.Advances read final
  /-- A fault is that of the token ahead. -/
  error_at : ∀ e, answer = .error e → e.token = final.current

namespace Outcome

variable {s s' : Descent} {α β : Type}

/-- Nothing is left to read. -/
def done (s : Descent) (a : α) : Outcome s α := ⟨.ok a, s, [], .refl s, nofun⟩

/-- The token ahead is at fault. -/
def fail (s : Descent) (expected : Expectation) : Outcome s α :=
  ⟨.error ⟨s.current, expected⟩, s, [], .refl s, fun _ h => by cases h; rfl⟩

/-- A function goes on behind some tokens. -/
def behind {read : List Token} (h : s.Advances read s') (o : Outcome s' α) : Outcome s α :=
  ⟨o.answer, o.final, read ++ o.read, h.trans o.advances, o.error_at⟩

/-- Goes on with what has been read, unless there was a fault. -/
def bind (o : Outcome s α)
    (next : (a : α) → (s' : Descent) → s'.depth = s.depth → s'.rest.length ≤ s.rest.length →
      Outcome s' β) : Outcome s β :=
  match h : o.answer with
  | .ok a => behind o.advances (next a o.final o.advances.depth_eq o.advances.length_le)
  | .error e => ⟨.error e, o.final, o.read, o.advances, fun _ heq => by cases heq; exact o.error_at e h⟩

/-- Makes something of what has been read. -/
def map (f : α → β) (o : Outcome s α) : Outcome s β := o.bind fun a s' _ _ => done s' (f a)

/-- Returns from the function that reads the expression of a type. -/
def nest (hdepth : s.depth < maxTypeDepth) (o : Outcome s.enter α) : Outcome s α :=
  ⟨o.answer, o.final.leave, o.read, .nest hdepth o.advances, o.error_at⟩

end Outcome

open Outcome (done fail)

/-- Reads the token ahead and goes on if it has the kind, and does something else otherwise. -/
def ifToken {α : Type} (s : Descent) (kind : TokenKind) (hkind : kind ≠ .endOfInput)
    (next : (t : Token) → (s' : Descent) → s'.depth = s.depth → s'.rest.length < s.rest.length →
      Outcome s' α) (otherwise : Outcome s α) : Outcome s α :=
  match h : s.rest with
  | [] => otherwise
  | t :: ts =>
    if ht : t.kind = kind then
      .behind (.token h (ht ▸ hkind)) (next t { s with rest := ts } rfl (by rw [h]; exact Nat.lt_succ_self _))
    else otherwise

/-- Reads the token ahead and goes on if it has the kind that is asked for. -/
def expect {α : Type} (s : Descent) (kind : TokenKind) (hkind : kind ≠ .endOfInput) (expected : Expectation)
    (next : (t : Token) → (s' : Descent) → s'.depth = s.depth → s'.rest.length < s.rest.length →
      Outcome s' α) : Outcome s α :=
  s.ifToken kind hkind next (fail s expected)

/-! ## Types -/

section Types

variable {d : Nat} (type : (s : Descent) → s.depth = d → Outcome s TypeExpr)

/-- Reads the arguments of a generic type from the first on, and the parenthesis behind them. -/
def arguments (s : Descent) (hs : s.depth = d) (before : List TypeExpr) : Outcome s (List TypeExpr) :=
  (type s hs).bind fun a s₁ hs₁ _ =>
    s₁.ifToken .comma nofun
      (fun _ s₂ hs₂ _ => arguments s₂ (hs₂.trans (hs₁.trans hs)) (a :: before))
      (s₁.expect .rightParen nofun .argumentsClose fun _ s₂ _ _ => done s₂ (a :: before).reverse)
termination_by s.rest.length

/-- Reads what stands behind the parenthesis that opens the arguments of a generic type. -/
def typeArguments (s : Descent) (hs : s.depth = d) : Outcome s (List TypeExpr) :=
  s.ifToken .rightParen nofun (fun _ s₁ _ _ => done s₁ []) (arguments type s hs [])

/-- Reads the parameters of a function from the first on. -/
def parameters (s : Descent) (hs : s.depth = d) (before : List Param) : Outcome s (List Param) :=
  s.expect .identifier nofun .paramName fun name s₁ hs₁ _ =>
    s₁.expect .colon nofun .paramColon fun _ s₂ hs₂ _ =>
      (type s₂ (hs₂.trans (hs₁.trans hs))).bind fun a s₃ hs₃ _ =>
        s₃.ifToken .comma nofun
          (fun _ s₄ hs₄ _ =>
            parameters s₄ (hs₄.trans (hs₃.trans (hs₂.trans (hs₁.trans hs)))) (⟨name.text, a⟩ :: before))
          (done s₃ (⟨name.text, a⟩ :: before).reverse)
termination_by s.rest.length

/-- Reads the parameters of a function, if there are any. -/
def parameterList (s : Descent) (hs : s.depth = d) : Outcome s (List Param) :=
  if s.ahead .rightParen then done s [] else parameters type s hs []

/-- Reads what stands behind the parenthesis that opens a function type. -/
def functionType (s : Descent) (hs : s.depth = d) : Outcome s TypeExpr :=
  (parameterList type s hs).bind fun ps s₁ hs₁ _ =>
    s₁.expect .rightParen nofun .paramsClose fun _ s₂ hs₂ _ =>
      s₂.ifToken .arrow nofun
        (fun _ s₃ hs₃ _ =>
          (type s₃ (hs₃.trans (hs₂.trans (hs₁.trans hs)))).map fun r => .function ps (some r))
        (done s₂ (.function ps none))

/-- Reads the expression of a type, its parts by `type`. -/
def typeExpr (s : Descent) (hs : s.depth = d) : Outcome s TypeExpr :=
  s.ifToken .identifier nofun
    (fun name s₁ hs₁ _ =>
      s₁.ifToken .leftParen nofun
        (fun _ s₂ hs₂ _ => (typeArguments type s₂ (hs₂.trans (hs₁.trans hs))).map (.generic name.text))
        (done s₁ (.named name.text)))
    (s.expect .leftParen nofun .type fun _ s₁ hs₁ _ => functionType type s₁ (hs₁.trans hs))

end Types

/-- Reads a type. -/
def type (s : Descent) : Outcome s TypeExpr :=
  if hdepth : s.depth < maxTypeDepth then
    .nest hdepth (typeExpr (fun s' _hs' => type s') s.enter rfl)
  else fail s .shallowerType
termination_by maxTypeDepth - s.depth
decreasing_by
  change s'.depth = s.depth + 1 at _hs'
  omega

/-! ## Declarations -/

/-- Reads the enumerators of an enumeration from the first on, and the brace behind them. -/
def enumerators (s : Descent) (before : List String) : Outcome s (List String) :=
  s.expect .identifier nofun .enumerator fun name s₁ _ _ =>
    s₁.ifToken .comma nofun (fun _ s₂ _ _ => enumerators s₂ (name.text :: before))
      (s₁.expect .rightBrace nofun .enumClose fun _ s₂ _ _ => done s₂ (name.text :: before).reverse)
termination_by s.rest.length

/-- Reads what stands behind `enum`. -/
def enumeration (s : Descent) : Outcome s Declaration :=
  s.expect .identifier nofun .enumName fun name s₁ _ _ =>
    s₁.expect .colon nofun .enumColon fun _ s₂ _ _ =>
      s₂.expect .identifier nofun .underlying fun underlying s₃ _ _ =>
        s₃.expect .leftBrace nofun .enumOpen fun _ s₄ _ _ =>
          .map (.enum name.text (.named underlying.text))
            (s₄.ifToken .rightBrace nofun (fun _ s₅ _ _ => done s₅ []) (enumerators s₄ []))

/-- Reads a member and goes on behind it. -/
def member {α : Type} (s : Descent)
    (next : Member → (s' : Descent) → s'.depth = s.depth → s'.rest.length < s.rest.length →
      Outcome s' α) : Outcome s α :=
  s.expect .identifier nofun .memberName fun name s₁ hs₁ _ =>
    s₁.expect .colon nofun .memberColon fun _ s₂ hs₂ _ =>
      (type s₂).bind fun a s₃ hs₃ _ =>
        s₃.expect .semicolon nofun .memberEnd fun _ s₄ hs₄ _ =>
          next ⟨name.text, a⟩ s₄ (hs₄.trans (hs₃.trans (hs₂.trans hs₁))) (by omega)

/-- Reads the members of a record, and the brace behind them. -/
def members (s : Descent) (before : List Member) : Outcome s (List Member) :=
  s.ifToken .rightBrace nofun (fun _ s₁ _ _ => done s₁ before.reverse)
    (s.member fun m s₁ _ _ => members s₁ (m :: before))
termination_by s.rest.length

/-- Reads the body of a record. -/
def body (s : Descent) (form : RecordForm) (name : String) (parent : Option TypeExpr) :
    Outcome s Declaration :=
  s.expect .leftBrace nofun .recordOpen fun _ s₁ _ _ => .map (.record form name parent) (members s₁ [])

/-- Reads what stands behind `struct` or `interface`. -/
def recordOf (s : Descent) (form : RecordForm) : Outcome s Declaration :=
  s.expect .identifier nofun .recordName fun name s₁ _ _ =>
    s₁.ifToken .colon nofun
      (fun _ s₂ _ _ => (type s₂).bind fun a s₃ _ _ => body s₃ form name.text (some a))
      (body s₁ form name.text none)

/-- Reads a declaration. -/
def declaration (s : Descent) : Outcome s Declaration :=
  if s.current.isWord "enum" then
    s.expect .identifier nofun .keyword fun _ s₁ _ _ => enumeration s₁
  else
    match RecordForm.ofKeyword? s.current.text with
    | some form => s.expect .identifier nofun .keyword fun _ s₁ _ _ => recordOf s₁ form
    | none => fail s .keyword

end Descent

end Idl
