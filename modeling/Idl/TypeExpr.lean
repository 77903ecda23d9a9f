import Idl.Token

/-!
# Type expressions

A type is a name, a name applied to arguments, or a function with named parameters and perhaps a
result. Names are any texts: nothing here asks that they be words or that they be declared.

Two measures of a type are kept beside it: how deep its expressions nest (`TypeExpr.depth`), and the
symbols that spell it (`TypeExpr.symbols`).
-/

namespace Idl

/-- A name with what it names. -/
structure Binding (α : Type) where
  /-- The name. -/
  name : String
  /-- The type of what bears it. -/
  type : α
deriving DecidableEq

/-- A type expression. -/
inductive TypeExpr
  /-- A name by itself. -/
  | named (name : String)
  /-- A name applied to a list of arguments, which may be empty. -/
  | generic (name : String) (arguments : List TypeExpr)
  /-- The type of a function, which may be without parameters or without a result. -/
  | function (params : List (Binding TypeExpr)) (result : Option TypeExpr)
deriving Inhabited

/-- A parameter of a function type. -/
abbrev Param := Binding TypeExpr

namespace TypeExpr

/-- What holds of a type whenever it holds of its parts holds of every type. -/
@[elab_as_elim, induction_eliminator]
theorem induction {motive : TypeExpr → Prop} (named : ∀ n, motive (named n))
    (generic : ∀ n as, (∀ a ∈ as, motive a) → motive (generic n as))
    (function : ∀ ps r, (∀ p ∈ ps, motive p.type) → (∀ a ∈ r, motive a) → motive (function ps r))
    (a : TypeExpr) : motive a := by
  apply @TypeExpr.rec motive (fun as => ∀ a ∈ as, motive a) (fun ps => ∀ p ∈ ps, motive p.type)
    (fun r => ∀ a ∈ r, motive a) (fun p => motive p.type)
  case named => exact named
  case generic => exact generic
  case function => exact function
  all_goals simp_all

/-! ## Equality -/

mutual

/-- Decides whether two types are equal. -/
def decEq : (a b : TypeExpr) → Decidable (a = b)
  | named m, named n => decidable_of_iff (m = n) (by simp)
  | generic m as, generic n bs =>
    have := listDecEq as bs
    decidable_of_iff (m = n ∧ as = bs) (by simp)
  | function ps none, function qs none =>
    have := paramsDecEq ps qs
    decidable_of_iff (ps = qs) (by simp)
  | function ps (some a), function qs (some b) =>
    have := paramsDecEq ps qs
    have := decEq a b
    decidable_of_iff (ps = qs ∧ a = b) (by simp)
  | named _, generic _ _ | named _, function _ _ | generic _ _, named _
  | generic _ _, function _ _ | function _ _, named _ | function _ _, generic _ _
  | function _ none, function _ (some _) | function _ (some _), function _ none =>
    isFalse (by simp)

/-- Decides whether two lists of types are equal. -/
def listDecEq : (as bs : List TypeExpr) → Decidable (as = bs)
  | [], [] => isTrue rfl
  | a :: as, b :: bs =>
    have := decEq a b
    have := listDecEq as bs
    decidable_of_iff (a = b ∧ as = bs) (by simp)
  | [], _ :: _ | _ :: _, [] => isFalse (by simp)

/-- Decides whether two lists of parameters are equal. -/
def paramsDecEq : (ps qs : List Param) → Decidable (ps = qs)
  | [], [] => isTrue rfl
  | ⟨m, a⟩ :: ps, ⟨n, b⟩ :: qs =>
    have := decEq a b
    have := paramsDecEq ps qs
    decidable_of_iff (m = n ∧ a = b ∧ ps = qs) (by simp [and_assoc])
  | [], _ :: _ | _ :: _, [] => isFalse (by simp)

end

instance : DecidableEq TypeExpr := decEq

/-! ## Nesting -/

mutual

/-- How deep the expressions of a type nest: a name by itself is one level, and every argument,
parameter and result is a level below the type it belongs to. -/
def depth : TypeExpr → Nat
  | named _ => 1
  | generic _ as => listDepth as + 1
  | function ps none => paramsDepth ps + 1
  | function ps (some r) => max (paramsDepth ps) r.depth + 1

/-- The depth of the deepest of a list of types. -/
def listDepth : List TypeExpr → Nat
  | [] => 0
  | a :: as => max a.depth (listDepth as)

/-- The depth of the deepest type of a list of parameters. -/
def paramsDepth : List Param → Nat
  | [] => 0
  | ⟨_, a⟩ :: ps => max a.depth (paramsDepth ps)

end

/-! ## Spelling -/

mutual

/-- The symbols that spell a type. -/
def symbols : TypeExpr → List Symbol
  | named n => [.word n]
  | generic n as => .word n :: .mark .leftParen :: (listSymbols as ++ [.mark .rightParen])
  | function ps none => .mark .leftParen :: (paramsSymbols ps ++ [.mark .rightParen])
  | function ps (some r) =>
    .mark .leftParen :: (paramsSymbols ps ++ .mark .rightParen :: .mark .arrow :: r.symbols)

/-- The symbols that spell a list of types, with commas between them. -/
def listSymbols : List TypeExpr → List Symbol
  | [] => []
  | [a] => a.symbols
  | a :: b :: as => a.symbols ++ .mark .comma :: listSymbols (b :: as)

/-- The symbols that spell a list of parameters, with commas between them. -/
def paramsSymbols : List Param → List Symbol
  | [] => []
  | [⟨n, a⟩] => .word n :: .mark .colon :: a.symbols
  | ⟨n, a⟩ :: p :: ps =>
    .word n :: .mark .colon :: (a.symbols ++ .mark .comma :: paramsSymbols (p :: ps))

end

end TypeExpr

end Idl
