import Idl.Proofs.Grammar.Nesting
import Idl.Proofs.Source.Pieces

/-!
# Type expressions where they are printed

The type expressions of a program are listed in the order in which they are printed, a type before its
parts. With each stands what is printed in front of it and how many others are around it (`TypeNode`).

Printing puts every one of them where the list says, and one behind the other (`Program.printed`). And a
type nests deeper than `m` levels only if one of the expressions in it has `m` others around it
(`TypeExpr.depth_le_of_nodes`).
-/

namespace Idl

/-- A type expression where it stands in canonical text. -/
structure TypeNode where
  /-- The pieces that are printed in front of it. -/
  front : List String
  /-- The number of type expressions around it. -/
  levels : Nat
  /-- The type expression itself. -/
  type : TypeExpr

namespace TypeNode

/-- A type expression that nothing is around, in front of everything else. -/
def outermost (a : TypeExpr) : TypeNode := ⟨[], 0, a⟩

/-- The same type expression with more printed in front of it. -/
def behind (f : List String → List String) (x : TypeNode) : TypeNode := { x with front := f x.front }

/-- The same type expression with one more around it, which begins in front of it. -/
def inside (f : List String → List String) (x : TypeNode) : TypeNode :=
  { x with front := f x.front, levels := x.levels + 1 }

end TypeNode

/-- The lexeme that a type begins with. -/
def TypeExpr.firstLexeme : TypeExpr → String
  | named n => n
  | generic n _ => n
  | function _ _ => "("

/-! ## Lists of type expressions -/

namespace TypeExpr

mutual

/-- The type expressions in a type. -/
def nodes : TypeExpr → List TypeNode
  | named n => [.outermost (named n)]
  | generic n as =>
    .outermost (generic n as) :: (listNodes as).map (.inside fun front => n :: "(" :: front)
  | function ps none =>
    .outermost (function ps none) :: (paramsNodes ps).map (.inside fun front => "(" :: front)
  | function ps (some r) =>
    .outermost (function ps (some r)) :: ((paramsNodes ps).map (.inside fun front => "(" :: front) ++
      r.nodes.map (.inside fun front => "(" :: paramsPieces ps (")" :: " -> " :: front)))

/-- The type expressions in a list of types. -/
def listNodes : List TypeExpr → List TypeNode
  | [] => []
  | a :: as => a.nodes ++ (listNodes as).map (.behind fun front => a.pieces (", " :: front))

/-- The type expressions in a list of parameters. -/
def paramsNodes : List Param → List TypeNode
  | [] => []
  | ⟨n, a⟩ :: ps =>
    a.nodes.map (.behind fun front => n :: ": " :: front) ++
      (paramsNodes ps).map (.behind fun front => n :: ": " :: a.pieces (", " :: front))

end

end TypeExpr

namespace Declaration

/-- The type expressions in a parent clause. -/
def parentNodes : Option TypeExpr → List TypeNode
  | none => []
  | some a => a.nodes.map (.behind fun front => " : " :: front)

/-- The type expressions in members. -/
def memberNodes : List Member → List TypeNode
  | [] => []
  | ⟨n, a⟩ :: ms =>
    a.nodes.map (.behind fun front => indent :: n :: ": " :: front) ++
      (memberNodes ms).map (.behind fun front => indent :: n :: ": " :: a.pieces (";\n" :: front))

/-- The type expressions in a declaration. -/
def nodes : Declaration → List TypeNode
  | enum n u _ => u.nodes.map (.behind fun front => "enum " :: n :: " : " :: front)
  | record form n parent members =>
    (parentNodes parent).map (.behind fun front => form.keyword :: " " :: n :: front) ++
      (memberNodes members).map
        (.behind fun front => form.keyword :: " " :: n :: parentPieces parent (" \x7b\n" :: front))

end Declaration

namespace Program

/-- The type expressions in declarations. -/
def listNodes : List Declaration → List TypeNode
  | [] => []
  | d :: ds => d.nodes ++ (listNodes ds).map (.behind fun front => d.pieces ("\n" :: front))

/-- The type expressions in a program. -/
def nodes (p : Program) : List TypeNode := listNodes p.toList

end Program

/-! ## Searching the lists -/

namespace TypeNode

variable {xs ys : List TypeNode} {f : List String → List String} {m : Nat} {x : TypeNode}

/-- What is printed in front does not matter to a search by levels. -/
theorem find?_map_behind (f : List String → List String) (m : Nat) (xs : List TypeNode) :
    (xs.map (behind f)).find? (·.levels = m) = (xs.find? (·.levels = m)).map (behind f) :=
  List.find?_map

/-- Inside one more type expression, a search is for one level more. -/
theorem find?_map_inside (f : List String → List String) (m : Nat) (xs : List TypeNode) :
    (xs.map (inside f)).find? (·.levels = m + 1) = (xs.find? (·.levels = m)).map (inside f) := by
  have hlevels : (fun y => decide ((inside f y).levels = m + 1)) = fun y => decide (y.levels = m) := by
    funext y
    exact decide_eq_decide.mpr Nat.succ_inj
  rw [List.find?_map, ← hlevels]
  rfl

/-- What is found with more printed in front is what is found without. -/
theorem exists_of_find?_behind (h : (xs.map (behind f)).find? (·.levels = m) = some x) :
    ∃ y, xs.find? (·.levels = m) = some y ∧ x = y.behind f := by
  rw [find?_map_behind] at h
  obtain ⟨y, hy, rfl⟩ := Option.map_eq_some_iff.mp h
  exact ⟨y, hy, rfl⟩

/-- What is found inside one more type expression is what is found outside at a level less. -/
theorem exists_of_find?_inside (h : (xs.map (inside f)).find? (·.levels = m + 1) = some x) :
    ∃ y, xs.find? (·.levels = m) = some y ∧ x = y.inside f := by
  rw [find?_map_inside] at h
  obtain ⟨y, hy, rfl⟩ := Option.map_eq_some_iff.mp h
  exact ⟨y, hy, rfl⟩

/-- A search of two lists finds something in the first, or nothing there and something in the second. -/
theorem find?_append_eq_some (h : (xs ++ ys).find? (·.levels = m) = some x) :
    xs.find? (·.levels = m) = some x ∨
      (∀ y ∈ xs, y.levels ≠ m) ∧ ys.find? (·.levels = m) = some x := by
  rw [List.find?_append, Option.or_eq_some_iff] at h
  refine h.imp_right fun ⟨hnone, hsome⟩ => ⟨fun y hy => ?_, hsome⟩
  simpa using List.find?_eq_none.mp hnone y hy

end TypeNode

/-- Nothing is around a type by itself. -/
theorem TypeExpr.find?_nodes_zero (a : TypeExpr) :
    a.nodes.find? (·.levels = 0) = some (.outermost a) := by
  cases a with
  | named n => rfl
  | generic n as => rfl
  | function ps r => cases r <;> rfl

/-! ## What is printed -/

/-- Whether a type expression is printed in some pieces where it says, and is not run together with what
follows. -/
def TypeNode.PrintedIn (pieces : List String) (x : TypeNode) : Prop :=
  ∃ after, EndsWord (charsOf after) ∧ pieces = x.front ++ x.type.pieces after

/-- Whether `g` has type expressions printed behind more, which `f` puts in front of pieces. -/
structure TypeNode.Fronts (f : List String → List String) (g : TypeNode → TypeNode) : Prop where
  /-- What is put in front does not depend on what follows. -/
  append : ∀ xs ys, f (xs ++ ys) = f xs ++ ys
  /-- It is printed in front. -/
  front : ∀ x, (g x).front = f x.front
  /-- The type expression stays the same. -/
  type : ∀ x, (g x).type = x.type

/-- Whether type expressions are printed in some pieces where they say, one behind the other. -/
structure TypeNode.Listed (pieces : List String) (xs : List TypeNode) : Prop where
  /-- Each is printed where it says. -/
  printed : ∀ x ∈ xs, x.PrintedIn pieces
  /-- Each begins behind those in front of it in the list. -/
  ordered : xs.Pairwise fun x y => x.front.length < y.front.length

/-- A type is printed as some piece at least. -/
theorem TypeExpr.pieces_ne_nil (a : TypeExpr) (after : List String) : a.pieces after ≠ [] := by
  cases a with
  | named n => exact List.cons_ne_nil _ _
  | generic n as => exact List.cons_ne_nil _ _
  | function ps r => cases r <;> exact List.cons_ne_nil _ _

namespace TypeNode

variable {f : List String → List String} {g : TypeNode → TypeNode} {xs ys : List TypeNode}
  {pieces : List String} {x : TypeNode}

/-- Printing more in front does so. -/
theorem fronts_behind (hf : ∀ xs ys, f (xs ++ ys) = f xs ++ ys) : Fronts f (behind f) :=
  ⟨hf, fun _ => rfl, fun _ => rfl⟩

/-- Putting one more type expression around does so, too. -/
theorem fronts_inside (hf : ∀ xs ys, f (xs ++ ys) = f xs ++ ys) : Fronts f (inside f) :=
  ⟨hf, fun _ => rfl, fun _ => rfl⟩

/-- What is put in front counts. -/
theorem Fronts.length_front (hg : Fronts f g) (x : TypeNode) :
    (g x).front.length = (f []).length + x.front.length := by
  rw [hg.front, ← List.length_append, ← hg.append, List.nil_append]

/-- What is printed begins inside the pieces. -/
theorem PrintedIn.length_front (h : x.PrintedIn pieces) : x.front.length < pieces.length := by
  obtain ⟨after, -, rfl⟩ := h
  rw [List.length_append]
  exact Nat.lt_add_of_pos_right (List.length_pos_iff.mpr (x.type.pieces_ne_nil after))

/-- No type expressions are printed. -/
theorem Listed.nil (pieces : List String) : Listed pieces [] := ⟨by simp, .nil⟩

/-- A type is printed in front of its parts. -/
theorem Listed.cons {a : TypeExpr} {after : List String} (hends : EndsWord (charsOf after))
    (h : Listed (a.pieces after) xs) (hpos : ∀ x ∈ xs, 0 < x.front.length) :
    Listed (a.pieces after) (outermost a :: xs) where
  printed := List.forall_mem_cons.mpr ⟨⟨after, hends, rfl⟩, h.printed⟩
  ordered := List.pairwise_cons.mpr ⟨hpos, h.ordered⟩

/-- What is in front of what a search finds is also in front of all else that it looks for. -/
theorem Listed.front_le_of_find? {m : Nat} (h : Listed pieces xs)
    (hx : xs.find? (·.levels = m) = some x) : ∀ y ∈ xs, y.levels = m → x.front <+: y.front := by
  intro y hy hlevels
  have hle : x.front.length ≤ y.front.length := by
    obtain ⟨-, before, after, rfl, hbefore⟩ := List.find?_eq_some_iff_append.mp hx
    have hbehind := (List.pairwise_cons.mp (List.pairwise_append.mp h.ordered).2.1).1
    rcases List.mem_append.mp hy with hy | hy
    · exact absurd hlevels (by simpa using hbefore y hy)
    rcases List.mem_cons.mp hy with rfl | hy
    · exact Nat.le_refl _
    · exact Nat.le_of_lt (hbehind y hy)
  obtain ⟨after, -, hpieces⟩ := h.printed x (List.mem_of_find?_eq_some hx)
  obtain ⟨after', -, hpieces'⟩ := h.printed y hy
  exact List.prefix_of_prefix_length_le ⟨_, hpieces.symm⟩ ⟨_, hpieces'.symm⟩ hle

/-- What is printed stays so when more is printed in front. -/
theorem Fronts.listed (hg : Fronts f g) (h : Listed pieces xs) : Listed (f pieces) (xs.map g) where
  printed := by
    rw [List.forall_mem_map]
    intro x hx
    obtain ⟨after, hends, rfl⟩ := h.printed x hx
    exact ⟨after, hends, by rw [hg.append, hg.front, hg.type]⟩
  ordered := by
    rw [List.pairwise_map]
    refine h.ordered.imp fun hlt => ?_
    rw [hg.length_front, hg.length_front]
    exact Nat.add_lt_add_left hlt _

/-- What is printed in front of everything that follows is printed in front of what is printed there. -/
theorem Fronts.listed_append (hg : Fronts f g) (hxs : ∀ pieces, Listed (f pieces) xs)
    (hys : Listed pieces ys) : Listed (f pieces) (xs ++ ys.map g) where
  printed := List.forall_mem_append.mpr ⟨(hxs pieces).printed, (hg.listed hys).printed⟩
  ordered := by
    refine List.pairwise_append.mpr ⟨(hxs pieces).ordered, (hg.listed hys).ordered, fun x hx => ?_⟩
    rw [List.forall_mem_map]
    intro y _
    have hlt := ((hxs []).printed x hx).length_front
    rw [hg.length_front]
    exact Nat.lt_of_lt_of_le hlt (Nat.le_add_right _ _)

end TypeNode

open TypeNode

namespace TypeExpr

/-- Whether the type expressions of a type are printed where they say, in front of anything that its last
name does not run into. -/
def Printed (a : TypeExpr) : Prop :=
  ∀ after, EndsWord (charsOf after) → Listed (a.pieces after) a.nodes

/-- The type expressions of a list are printed where they say. -/
theorem listPrinted {as : List TypeExpr} (has : ∀ a ∈ as, a.Printed) (after : List String)
    (hends : EndsWord (charsOf after)) : Listed (listPieces as after) (listNodes as) := by
  induction as with
  | nil => exact .nil _
  | cons a as ih =>
    have ha := has a List.mem_cons_self
    have hrest := ih fun b hb => has b (List.mem_cons_of_mem a hb)
    cases as with
    | nil =>
      rw [listNodes, listNodes, List.map_nil, List.append_nil]
      exact ha after hends
    | cons b as =>
      have hfront := fronts_behind (f := fun front => a.pieces (", " :: front))
        fun xs ys => a.pieces_append (", " :: xs) ys
      exact hfront.listed_append (fun pieces => ha (", " :: pieces) (endsWord_cons rfl _)) hrest

/-- The type expressions of parameters are printed where they say. -/
theorem paramsPrinted {ps : List Param} (hps : ∀ p ∈ ps, p.type.Printed) (after : List String)
    (hends : EndsWord (charsOf after)) : Listed (paramsPieces ps after) (paramsNodes ps) := by
  induction ps with
  | nil => exact .nil _
  | cons p ps ih =>
    obtain ⟨n, a⟩ := p
    have ha : a.Printed := hps ⟨n, a⟩ List.mem_cons_self
    have hrest := ih fun q hq => hps q (List.mem_cons_of_mem _ hq)
    have hlabel := fronts_behind (f := fun front => n :: ": " :: front) fun _ _ => rfl
    cases ps with
    | nil =>
      rw [paramsNodes, paramsNodes, List.map_nil, List.append_nil]
      exact hlabel.listed (ha after hends)
    | cons q ps =>
      have hfront := fronts_behind (f := fun front => n :: ": " :: a.pieces (", " :: front))
        fun xs ys => congrArg (n :: ": " :: ·) (a.pieces_append (", " :: xs) ys)
      exact hfront.listed_append
        (fun pieces => hlabel.listed (ha (", " :: pieces) (endsWord_cons rfl _))) hrest

/-- The type expressions of a type are printed where they say. -/
theorem printed (a : TypeExpr) : a.Printed := by
  induction a with
  | named n =>
    intro after hends
    exact .cons hends (.nil _) (by simp)
  | generic n as ih =>
    intro after hends
    have hargs := listPrinted ih (")" :: after) (endsWord_cons rfl _)
    have hopen := fronts_inside (f := fun front => n :: "(" :: front) fun _ _ => rfl
    exact .cons hends (hopen.listed hargs) (List.forall_mem_map.mpr fun _ _ => Nat.succ_pos _)
  | function ps r ihps ihr =>
    intro after hends
    have hopen := fronts_inside (f := fun front => "(" :: front) fun _ _ => rfl
    cases r with
    | none =>
      have hparams := paramsPrinted ihps (")" :: after) (endsWord_cons rfl _)
      exact .cons hends (hopen.listed hparams) (List.forall_mem_map.mpr fun _ _ => Nat.succ_pos _)
    | some r =>
      have harrow := fronts_inside (f := fun front => "(" :: paramsPieces ps (")" :: " -> " :: front))
        fun xs ys => congrArg ("(" :: ·)
          (paramsPieces_append (fun p _ => p.type.pieces_append) (")" :: " -> " :: xs) ys)
      have hparams := fun pieces =>
        hopen.listed (paramsPrinted ihps (")" :: " -> " :: pieces) (endsWord_cons rfl _))
      refine .cons hends (harrow.listed_append hparams (ihr r rfl after hends)) ?_
      rw [List.forall_mem_append, List.forall_mem_map, List.forall_mem_map]
      exact ⟨fun _ _ => Nat.succ_pos _, fun _ _ => Nat.succ_pos _⟩

end TypeExpr

namespace Declaration

/-- The type expressions of members are printed where they say. -/
theorem memberPrinted (ms : List Member) (after : List String) :
    Listed (memberPieces ms after) (memberNodes ms) := by
  induction ms with
  | nil => exact .nil _
  | cons m ms ih =>
    obtain ⟨n, a⟩ := m
    have hlabel := fronts_behind (f := fun front => indent :: n :: ": " :: front) fun _ _ => rfl
    have hfront := fronts_behind (f := fun front => indent :: n :: ": " :: a.pieces (";\n" :: front))
      fun xs ys => congrArg (indent :: n :: ": " :: ·) (a.pieces_append (";\n" :: xs) ys)
    exact hfront.listed_append
      (fun pieces => hlabel.listed (a.printed (";\n" :: pieces) (endsWord_cons rfl _))) ih

/-- The type expressions of a parent clause are printed where they say. -/
theorem parentPrinted (parent : Option TypeExpr) (after : List String) (hends : EndsWord (charsOf after)) :
    Listed (parentPieces parent after) (parentNodes parent) := by
  cases parent with
  | none => exact .nil _
  | some a =>
    have hcolon := fronts_behind (f := fun front => " : " :: front) fun _ _ => rfl
    exact hcolon.listed (a.printed after hends)

/-- The type expressions of a declaration are printed where they say. -/
theorem printed (decl : Declaration) (after : List String) : Listed (decl.pieces after) decl.nodes := by
  cases decl with
  | enum n u ns =>
    have hu := u.printed (" \x7b\n" :: enumeratorPieces ns ("\x7d" :: after)) (endsWord_cons rfl _)
    have hhead := fronts_behind (f := fun front => "enum " :: n :: " : " :: front) fun _ _ => rfl
    exact hhead.listed hu
  | record form n parent members =>
    have hname := fronts_behind (f := fun front => form.keyword :: " " :: n :: front) fun _ _ => rfl
    have hhead := fronts_behind
      (f := fun front => form.keyword :: " " :: n :: parentPieces parent (" \x7b\n" :: front))
      fun xs ys => congrArg (form.keyword :: " " :: n :: ·) (parentPieces_append parent (" \x7b\n" :: xs) ys)
    exact hhead.listed_append
      (fun pieces => hname.listed (parentPrinted parent (" \x7b\n" :: pieces) (endsWord_cons rfl _)))
      (memberPrinted members ("\x7d" :: after))

end Declaration

/-- The type expressions of a program are printed where they say, one behind the other. -/
theorem Program.printed (p : Program) : Listed p.pieces p.nodes := by
  unfold nodes pieces
  induction p.toList with
  | nil => exact .nil _
  | cons d ds ih =>
    cases ds with
    | nil =>
      rw [listNodes, listNodes, List.map_nil, List.append_nil]
      exact d.printed []
    | cons e ds =>
      have hfront := fronts_behind (f := fun front => d.pieces ("\n" :: front))
        fun xs ys => d.pieces_append ("\n" :: xs) ys
      exact hfront.listed_append (fun pieces => d.printed ("\n" :: pieces)) ih

/-! ## Levels -/

namespace TypeExpr

/-- Whether a type nests no deeper than the number of type expressions that is around none of those in
it. -/
def DepthByNodes (a : TypeExpr) : Prop := ∀ m, (∀ x ∈ a.nodes, x.levels ≠ m) → a.depth ≤ m

/-- A list of types in which no type expression has so many around it nests no deeper. -/
theorem listDepth_le_of_nodes {as : List TypeExpr} (has : ∀ a ∈ as, a.DepthByNodes) {m : Nat}
    (h : ∀ x ∈ listNodes as, x.levels ≠ m) : listDepth as ≤ m := by
  induction as with
  | nil => exact Nat.zero_le m
  | cons a as ih =>
    rw [listNodes, List.forall_mem_append, List.forall_mem_map] at h
    exact Nat.max_le.mpr ⟨has a List.mem_cons_self m h.1,
      ih (fun b hb => has b (List.mem_cons_of_mem a hb)) h.2⟩

/-- Parameters in which no type expression has so many around it nest no deeper. -/
theorem paramsDepth_le_of_nodes {ps : List Param} (hps : ∀ p ∈ ps, p.type.DepthByNodes) {m : Nat}
    (h : ∀ x ∈ paramsNodes ps, x.levels ≠ m) : paramsDepth ps ≤ m := by
  induction ps with
  | nil => exact Nat.zero_le m
  | cons p ps ih =>
    obtain ⟨n, a⟩ := p
    rw [paramsNodes, List.forall_mem_append, List.forall_mem_map, List.forall_mem_map] at h
    exact Nat.max_le.mpr ⟨hps ⟨n, a⟩ List.mem_cons_self m h.1,
      ih (fun q hq => hps q (List.mem_cons_of_mem _ hq)) h.2⟩

/-- What is inside one more type expression has so many around it if it has one less by itself. -/
theorem levels_ne_of_inside {xs : List TypeNode} {f : List String → List String} {m : Nat}
    (h : ∀ y ∈ xs, (y.inside f).levels ≠ m + 1) : ∀ y ∈ xs, y.levels ≠ m :=
  fun y hy heq => h y hy (congrArg (· + 1) heq)

/-- A type in which no type expression has so many around it nests no deeper. -/
theorem depth_le_of_nodes (a : TypeExpr) : a.DepthByNodes := by
  induction a with
  | named n =>
    intro m h
    exact Nat.one_le_iff_ne_zero.mpr (Ne.symm (h _ (List.mem_singleton_self _)))
  | generic n as ih =>
    intro m h
    rw [nodes, List.forall_mem_cons, List.forall_mem_map] at h
    cases m with
    | zero => exact absurd rfl h.1
    | succ m => exact Nat.succ_le_succ (listDepth_le_of_nodes ih (levels_ne_of_inside h.2))
  | function ps r ihps ihr =>
    intro m h
    cases r with
    | none =>
      rw [nodes, List.forall_mem_cons, List.forall_mem_map] at h
      cases m with
      | zero => exact absurd rfl h.1
      | succ m => exact Nat.succ_le_succ (paramsDepth_le_of_nodes ihps (levels_ne_of_inside h.2))
    | some r =>
      rw [nodes, List.forall_mem_cons, List.forall_mem_append, List.forall_mem_map,
        List.forall_mem_map] at h
      obtain ⟨hhead, hparams, hresult⟩ := h
      cases m with
      | zero => exact absurd rfl hhead
      | succ m =>
        have hps := paramsDepth_le_of_nodes ihps (levels_ne_of_inside hparams)
        have hr := ihr r rfl m (levels_ne_of_inside hresult)
        exact Nat.succ_le_succ (Nat.max_le.mpr ⟨hps, hr⟩)

end TypeExpr

namespace Declaration

/-- Members in which no type expression has so many around it nest no deeper. -/
theorem depth_le_of_memberNodes {ms : List Member} {m : Nat} (h : ∀ x ∈ memberNodes ms, x.levels ≠ m) :
    ∀ k ∈ ms, k.type.depth ≤ m := by
  induction ms with
  | nil =>
    intro k hk
    contradiction
  | cons k ms ih =>
    rw [memberNodes, List.forall_mem_append, List.forall_mem_map, List.forall_mem_map] at h
    exact List.forall_mem_cons.mpr ⟨k.type.depth_le_of_nodes m h.1, ih h.2⟩

/-- The types of a declaration in which no type expression has so many around it nest no deeper. -/
theorem depth_le_of_nodes {decl : Declaration} {m : Nat} (h : ∀ x ∈ decl.nodes, x.levels ≠ m) :
    ∀ a ∈ decl.types, a.depth ≤ m := by
  cases decl with
  | enum n u ns =>
    intro a ha
    contradiction
  | record form n parent members =>
    rw [nodes, List.forall_mem_append, List.forall_mem_map, List.forall_mem_map] at h
    rw [types, List.forall_mem_append, List.forall_mem_map]
    refine ⟨fun a ha => ?_, depth_le_of_memberNodes h.2⟩
    obtain rfl := Option.mem_toList.mp ha
    have hparent := h.1
    rw [parentNodes, List.forall_mem_map] at hparent
    exact a.depth_le_of_nodes m hparent

end Declaration

/-- If some type of a program nests deeper than `m` levels, some type expression in the program has `m`
others around it. -/
theorem Program.exists_find?_nodes {p : Program} {m : Nat} (h : ∃ e ∈ p.toList, ∃ a ∈ e.types, m < a.depth) :
    ∃ x, p.nodes.find? (·.levels = m) = some x := by
  obtain ⟨e, he, a, ha, hdeep⟩ := h
  have hnodes : ∀ ds : List Declaration, (∀ x ∈ listNodes ds, x.levels ≠ m) →
      ∀ e ∈ ds, ∀ x ∈ e.nodes, x.levels ≠ m := by
    intro ds
    induction ds with
    | nil => simp
    | cons d ds ih =>
      intro h
      rw [listNodes, List.forall_mem_append, List.forall_mem_map] at h
      exact List.forall_mem_cons.mpr ⟨h.1, ih h.2⟩
  apply Option.isSome_iff_exists.mp
  rw [List.find?_isSome]
  apply Decidable.byContradiction
  intro hnone
  have hall : ∀ x ∈ p.nodes, x.levels ≠ m := fun x hx heq => hnone ⟨x, hx, decide_eq_true heq⟩
  exact Nat.not_le_of_lt hdeep (Declaration.depth_le_of_nodes (hnodes p.toList hall e he) a ha)

end Idl
