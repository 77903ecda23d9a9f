import Idl.Grammar.Expectation
import Idl.TypeExpr

/-!
# Types under way

Types are read by a pushdown automaton. A `TypeStack` is its configuration: the place reached in the
innermost type that is still open, and a frame for each type around it. `TypeStack.step` moves it
over one token; it never looks at a second one.

A type may be over without a token that says so (a name is over when no parenthesis follows, a
function when no arrow does), so its end shows at the token behind it. `TypeStack.leave` then hands
the finished type to the frame around it, and the token to what that frame asks for next.

How many types may be open at once is a parameter, and a type too many is refused at its first token
whatever that token is.
-/

namespace Idl.Grammar

/-- What an open type waits in for one of its parts. -/
inductive Frame
  /-- A generic type waits for an argument, with those before it (last one first). -/
  | argument (name : String) (before : List TypeExpr)
  /-- A function waits for the type of a parameter, with the parameters before it (last one
  first). -/
  | param (before : List Param) (name : String)
  /-- A function waits for its result. -/
  | result (params : List Param)

/-- A place in the innermost open type. -/
inductive TypePlace
  /-- Before the type. -/
  | start
  /-- Behind a name, which arguments may follow. -/
  | name (name : String)
  /-- Behind the parenthesis that opens the arguments. -/
  | firstArgument (name : String)
  /-- Behind the parenthesis that opens the parameters. -/
  | firstParam
  /-- Behind a comma between parameters, given those before it (last one first). -/
  | nextParam (before : List Param)
  /-- Behind the name of a parameter. -/
  | paramColon (before : List Param) (name : String)
  /-- Behind the parenthesis that closes the parameters, which a result may follow. -/
  | afterParams (params : List Param)
  /-- Behind the last token of the type. -/
  | ended (type : TypeExpr)

/-- A type under way. -/
structure TypeStack where
  /-- The types around the innermost one, from the inside out. -/
  frames : List Frame
  /-- The place in the innermost type. -/
  place : TypePlace

/-- What a token does to a type under way. -/
inductive TypeStep
  /-- The token is read. -/
  | next (stack : TypeStack)
  /-- The type was over before the token. -/
  | over (type : TypeExpr)
  /-- The token has no place there. -/
  | stuck

/-- Whether no further type may be opened inside the types already open. -/
def limitReached (limit : Option Nat) (levels : Nat) : Bool := limit.any (· ≤ levels)

namespace TypeStack

/-- Before a type that nothing encloses. -/
def start : TypeStack := ⟨[], .start⟩

/-- Reads the first token of a type inside the given frames. -/
def enter (limit : Option Nat) (frames : List Frame) (t : Token) : TypeStep :=
  if limitReached limit frames.length then .stuck
  else
    match t.kind with
    | .identifier => .next ⟨frames, .name t.text⟩
    | .leftParen => .next ⟨frames, .firstParam⟩
    | _ => .stuck

/-- Takes a finished type out to the frames around it, and reads the token behind it there. -/
def leave : List Frame → TypeExpr → Token → TypeStep
  | [], type, _ => .over type
  | .argument name before :: frames, type, t =>
    match t.kind with
    | .comma => .next ⟨.argument name (type :: before) :: frames, .start⟩
    | .rightParen => .next ⟨frames, .ended (.generic name (type :: before).reverse)⟩
    | _ => .stuck
  | .param before name :: frames, type, t =>
    match t.kind with
    | .comma => .next ⟨frames, .nextParam (⟨name, type⟩ :: before)⟩
    | .rightParen => .next ⟨frames, .afterParams (⟨name, type⟩ :: before).reverse⟩
    | _ => .stuck
  | .result params :: frames, type, t => leave frames (.function params (some type)) t

/-- Reads one token of a type under way. -/
def step (limit : Option Nat) (s : TypeStack) (t : Token) : TypeStep :=
  -- Where a token does not go on with the innermost type, that type was over before it.
  match s.place, t.kind with
  | .start, _ => enter limit s.frames t
  | .name name, .leftParen => .next ⟨s.frames, .firstArgument name⟩
  | .name name, _ => leave s.frames (.named name) t
  | .firstArgument name, .rightParen => .next ⟨s.frames, .ended (.generic name [])⟩
  | .firstArgument name, _ => enter limit (.argument name [] :: s.frames) t
  | .firstParam, .rightParen => .next ⟨s.frames, .afterParams []⟩
  | .firstParam, .identifier => .next ⟨s.frames, .paramColon [] t.text⟩
  | .firstParam, _ => .stuck
  | .nextParam before, .identifier => .next ⟨s.frames, .paramColon before t.text⟩
  | .nextParam _, _ => .stuck
  | .paramColon before name, .colon => .next ⟨.param before name :: s.frames, .start⟩
  | .paramColon _ _, _ => .stuck
  | .afterParams params, .arrow => .next ⟨.result params :: s.frames, .start⟩
  | .afterParams params, _ => leave s.frames (.function params none) t
  | .ended type, _ => leave s.frames type t

/-- Before a type, its first token is read. -/
theorem step_start (limit : Option Nat) (frames : List Frame) (t : Token) :
    step limit ⟨frames, .start⟩ t = enter limit frames t := rfl

/-- A parenthesis behind a name opens its arguments. -/
theorem step_name_open (limit : Option Nat) (frames : List Frame) (n : String) {t : Token}
    (h : t.kind = .leftParen) :
    step limit ⟨frames, .name n⟩ t = .next ⟨frames, .firstArgument n⟩ := by
  simp only [step, h]

/-- A name is over at any token but a parenthesis. -/
theorem step_name_leave (limit : Option Nat) (frames : List Frame) (n : String) {t : Token}
    (h : t.kind ≠ .leftParen) :
    step limit ⟨frames, .name n⟩ t = leave frames (.named n) t := by
  cases hk : t.kind <;> simp_all only [step, ne_eq, not_true_eq_false]

/-- A parenthesis may close the arguments at once. -/
theorem step_firstArgument_close (limit : Option Nat) (frames : List Frame) (n : String) {t : Token}
    (h : t.kind = .rightParen) :
    step limit ⟨frames, .firstArgument n⟩ t = .next ⟨frames, .ended (.generic n [])⟩ := by
  simp only [step, h]

/-- Any other token begins the first argument. -/
theorem step_firstArgument_enter (limit : Option Nat) (frames : List Frame) (n : String) {t : Token}
    (h : t.kind ≠ .rightParen) :
    step limit ⟨frames, .firstArgument n⟩ t = enter limit (.argument n [] :: frames) t := by
  cases hk : t.kind <;> simp_all only [step, ne_eq, not_true_eq_false]

/-- An arrow behind the parameters announces a result. -/
theorem step_afterParams_arrow (limit : Option Nat) (frames : List Frame) (ps : List Param)
    {t : Token} (h : t.kind = .arrow) :
    step limit ⟨frames, .afterParams ps⟩ t = .next ⟨.result ps :: frames, .start⟩ := by
  simp only [step, h]

/-- A function without a result is over at any other token. -/
theorem step_afterParams_leave (limit : Option Nat) (frames : List Frame) (ps : List Param)
    {t : Token} (h : t.kind ≠ .arrow) :
    step limit ⟨frames, .afterParams ps⟩ t = leave frames (.function ps none) t := by
  cases hk : t.kind <;> simp_all only [step, ne_eq, not_true_eq_false]

/-- What is asked for where a type is to begin inside so many others. -/
def expectedEntry (limit : Option Nat) (levels : Nat) : Expectation :=
  if limitReached limit levels then .shallowerType else .type

/-- What is asked for behind a finished type: the end of the list it stands in, and `outer` behind
the whole type. -/
def expectedBehind (outer : Expectation) : List Frame → Expectation
  | [] => outer
  | .argument _ _ :: _ => .argumentsClose
  | .param _ _ :: _ => .paramsClose
  | .result _ :: frames => expectedBehind outer frames

/-- What a type under way asks for when a token has no place in it, given what is asked for behind
the whole type. -/
def expected (limit : Option Nat) (outer : Expectation) (s : TypeStack) : Expectation :=
  match s.place with
  | .start => expectedEntry limit s.frames.length
  | .firstArgument _ => expectedEntry limit (s.frames.length + 1)
  | .firstParam | .nextParam _ => .paramName
  | .paramColon _ _ => .paramColon
  | .name _ | .afterParams _ | .ended _ => expectedBehind outer s.frames

/-- The whole type when the frames around a finished type wait for nothing but results. -/
def close? : List Frame → TypeExpr → Option TypeExpr
  | [], type => some type
  | .result params :: frames, type => close? frames (.function params (some type))
  | _ :: _, _ => none

/-- The whole type, if it may be over. -/
def complete? (s : TypeStack) : Option TypeExpr :=
  match s.place with
  | .name name => close? s.frames (.named name)
  | .afterParams params => close? s.frames (.function params none)
  | .ended type => close? s.frames type
  | _ => none

end TypeStack

end Idl.Grammar
