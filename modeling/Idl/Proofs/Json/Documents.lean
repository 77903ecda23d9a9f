import Idl.Json.Reader
import Idl.Proofs.Json.Tokens

/-!
# Documents read back

The tokens of a document are read as the document (`ofTokens?_tokens`). The automaton that reads them
is followed from the place before a value to the place behind it, whatever arrays and objects are open
around it.

Both written forms have these tokens and differ in blanks alone. So both are read as the document, as
far as its tokens are read from their texts, which is when the document is `Exact`
(`parse?_compact`, `parse?_pretty`).
-/

namespace Idl.Json

/-! ## Tokens to documents -/

namespace Stack

/-- The place that is reached by reading some tokens. -/
def run? (s : Stack) (tokens : List Token) : Option Stack := tokens.foldlM step? s

/-- A first token that is read takes the reading one step further. -/
theorem run?_cons {s s' : Stack} {t : Token} (h : s.step? t = some s') (ts : List Token) :
    s.run? (t :: ts) = s'.run? ts := by
  rw [run?, List.foldlM_cons, h]
  rfl

/-- Behind its bracket an array that is not closed goes on with a value. -/
theorem run?_firstItem {t : Token} (h : t ≠ .closeArray) (frames : List Frame) (ts : List Token) :
    run? ⟨frames, .firstItem⟩ (t :: ts) = run? ⟨.array [] :: frames, .value⟩ (t :: ts) := by
  cases t with
  | closeArray => contradiction
  | _ => rfl

end Stack

/-- Applying a function to each member of a list succeeds if it does for each of them. -/
theorem mapM_eq_some_iff {α β : Type} {f : α → Option β} {xs : List α} {ys : List β} :
    xs.mapM f = some ys ↔ xs.map f = ys.map some := by
  induction xs generalizing ys with
  | nil => cases ys <;> simp
  | cons x xs ih =>
    rw [List.mapM_cons, List.map_cons]
    cases f x with
    | none => cases ys <;> simp
    | some y =>
      cases ys with
      | nil => cases xs.mapM f <;> simp
      | cons y' ys =>
        rw [List.map_cons, List.cons.injEq, Option.some.injEq, ← ih]
        cases xs.mapM f <;> simp

/-- What a function yields on a list, it yields on members of the list. -/
theorem exists_of_mem_mapM {α β : Type} {f : α → Option β} {xs : List α} {ys : List β}
    (h : xs.mapM f = some ys) {y : β} (hy : y ∈ ys) : ∃ x ∈ xs, f x = some y := by
  rw [mapM_eq_some_iff] at h
  rw [← List.mem_map, h]
  exact List.mem_map_of_mem hy

/-- Fields whose keys are texts make up an object. -/
theorem objectOf_map (fields : List (String × Value)) :
    objectOf (fields.map fun f => (some f.1, f.2)) = .object fields := by
  have hfields : (fields.map fun f => (some f.1, f.2)).mapM
      (fun f : Option String × Value => f.1.map (·, f.2)) = some fields := by
    rw [mapM_eq_some_iff, List.map_map]
    rfl
  unfold objectOf
  split
  case h_1 named hnamed =>
    cases hfields.symm.trans hnamed
    rfl
  case h_2 hnone => cases hfields.symm.trans hnone

namespace Value

/-- Whether the tokens of a value are read as the value, inside all arrays and objects. -/
def ReadsBack (v : Value) : Prop :=
  ∀ frames after,
    Stack.run? ⟨frames, .value⟩ (v.tokens after) = Stack.run? ⟨frames, .ended v⟩ after

/-- The tokens of the items of an array are read as the array, behind the items read before. -/
theorem run?_listTokens {v : Value} {vs : List Value} (h : ∀ w ∈ v :: vs, w.ReadsBack)
    (before : List Value) (frames : List Frame) (after : List Token) :
    Stack.run? ⟨.array before :: frames, .value⟩ (listTokens (v :: vs) (.closeArray :: after)) =
      Stack.run? ⟨frames, .ended (.array (before.reverse ++ v :: vs))⟩ after := by
  induction vs generalizing v before with
  | nil =>
    rw [listTokens, h v List.mem_cons_self, Stack.run?_cons rfl, List.reverse_cons]
  | cons w vs ih =>
    rw [listTokens, h v List.mem_cons_self, Stack.run?_cons rfl,
      ih (fun u hu => h u (List.mem_cons_of_mem v hu)), List.reverse_cons, List.append_assoc]
    rfl

/-- The tokens of the fields of an object are read as the object, behind the fields read before. -/
theorem run?_fieldsTokens {f : String × Value} {fs : List (String × Value)}
    (h : ∀ g ∈ f :: fs, g.2.ReadsBack) (before : List (Option String × Value))
    (frames : List Frame) (after : List Token) :
    Stack.run? ⟨frames, .nextKey before⟩ (fieldsTokens (f :: fs) (.closeObject :: after)) =
      Stack.run? ⟨frames, .ended (objectOf
        (before.reverse ++ (f :: fs).map fun f => (some f.1, f.2)))⟩ after := by
  induction fs generalizing f before with
  | nil =>
    rw [fieldsTokens, Stack.run?_cons rfl, Stack.run?_cons rfl, h f List.mem_cons_self,
      Stack.run?_cons rfl, List.reverse_cons]
    rfl
  | cons g fs ih =>
    rw [fieldsTokens, Stack.run?_cons rfl, Stack.run?_cons rfl, h f List.mem_cons_self,
      Stack.run?_cons rfl, ih (fun u hu => h u (List.mem_cons_of_mem f hu)), List.reverse_cons,
      List.append_assoc]
    rfl

/-- The first token of an array's items closes no array. -/
theorem listTokens_eq_cons (v : Value) (vs : List Value) (after : List Token) :
    ∃ t ts, listTokens (v :: vs) after = t :: ts ∧ t ≠ .closeArray := by
  cases vs <;> cases v <;> exact ⟨_, _, rfl, by simp⟩

/-- The tokens of every value are read as the value. -/
theorem readsBack (v : Value) : v.ReadsBack := by
  induction v with
  | null | bool b | number n | string s | unreadable => exact fun _ _ => rfl
  | array items ih =>
    intro frames after
    rw [tokens, Stack.run?_cons rfl]
    cases items with
    | nil => exact Stack.run?_cons rfl after
    | cons v vs =>
      -- Behind the bracket the array might be closed, which its first item does not do.
      obtain ⟨t, ts, hitems, hopen⟩ := listTokens_eq_cons v vs (.closeArray :: after)
      rw [hitems, Stack.run?_firstItem hopen, ← hitems, run?_listTokens ih]
      rfl
  | object fields ih =>
    intro frames after
    rw [tokens, Stack.run?_cons rfl]
    cases fields with
    | nil => exact Stack.run?_cons rfl after
    | cons f fs =>
      -- A key is read behind the brace as it is behind a comma.
      have hfirst : ∀ ts, Stack.run? ⟨frames, .firstKey⟩ (.string (some f.1) :: ts) =
          Stack.run? ⟨frames, .nextKey []⟩ (.string (some f.1) :: ts) := fun _ => rfl
      have hfields := run?_fieldsTokens ih [] frames after
      rw [List.reverse_nil, List.nil_append, objectOf_map] at hfields
      cases fs <;> exact (hfirst _).trans hfields

/-- The tokens of a document are read as the document. -/
theorem ofTokens?_tokens (v : Value) : ofTokens? (v.tokens []) = some v := by
  have hread : Stack.run? .start (v.tokens []) = some ⟨[], .ended v⟩ := v.readsBack [] []
  show (Stack.run? .start (v.tokens [])).bind Stack.complete? = some v
  rw [hread]
  rfl

/-! ## Texts to documents -/

/-- The layout of the items of an array has their tokens. -/
theorem layoutTokens_listLayout {vs : List Value}
    (h : ∀ v ∈ vs, ∀ level after, layoutTokens (v.layout level after) = v.tokens (layoutTokens after))
    (level : Nat) (after : List Layout) :
    layoutTokens (listLayout level vs after) = listTokens vs (layoutTokens after) := by
  induction vs with
  | nil => rfl
  | cons v vs ih =>
    have hv := h v List.mem_cons_self level
    cases vs with
    | nil => exact hv after
    | cons w vs =>
      rw [listLayout, hv, listTokens, ← ih fun u hu => h u (List.mem_cons_of_mem v hu)]
      rfl

/-- The layout of the fields of an object has their tokens. -/
theorem layoutTokens_fieldsLayout {fs : List (String × Value)}
    (h : ∀ f ∈ fs, ∀ level after,
      layoutTokens (f.2.layout level after) = f.2.tokens (layoutTokens after))
    (level : Nat) (after : List Layout) :
    layoutTokens (fieldsLayout level fs after) = fieldsTokens fs (layoutTokens after) := by
  induction fs with
  | nil => rfl
  | cons f fs ih =>
    have hf := h f List.mem_cons_self level
    cases fs with
    | nil => exact congrArg (fun ts => .string (some f.1) :: .colon :: ts) (hf after)
    | cons g fs =>
      rw [fieldsTokens, ← ih fun u hu => h u (List.mem_cons_of_mem f hu)]
      exact congrArg (fun ts => .string (some f.1) :: .colon :: ts) (hf _)

/-- The pretty form of a value has the same tokens as the compact one. -/
theorem layoutTokens_layout (v : Value) (level : Nat) (after : List Layout) :
    layoutTokens (v.layout level after) = v.tokens (layoutTokens after) := by
  induction v generalizing level after with
  | null | bool b | number n | string s | unreadable => rfl
  | array items ih =>
    cases items with
    | nil => rfl
    | cons v vs => exact congrArg (.openArray :: ·) (layoutTokens_listLayout ih _ _)
  | object fields ih =>
    cases fields with
    | nil => rfl
    | cons f fs => exact congrArg (.openObject :: ·) (layoutTokens_fieldsLayout ih _ _)

/-- A document without numbers and without anything unreadable. -/
inductive Exact : Value → Prop
  | null : null.Exact
  | bool (b : Bool) : (bool b).Exact
  | string (s : String) : (string s).Exact
  | array {items : List Value} (h : ∀ v ∈ items, v.Exact) : (array items).Exact
  | object {fields : List (String × Value)} (h : ∀ f ∈ fields, f.2.Exact) : (object fields).Exact

/-- The tokens of the items of an array are exact if those of each item are. -/
theorem exact_listTokens {vs : List Value}
    (h : ∀ v ∈ vs, ∀ after : List Token, (∀ t ∈ after, t.Exact) → ∀ t ∈ v.tokens after, t.Exact)
    {after : List Token} (hafter : ∀ t ∈ after, t.Exact) : ∀ t ∈ listTokens vs after, t.Exact := by
  induction vs with
  | nil => exact hafter
  | cons v vs ih =>
    have hv := h v List.mem_cons_self
    cases vs with
    | nil => exact hv after hafter
    | cons w vs =>
      exact hv _ (List.forall_mem_cons.mpr
        ⟨trivial, ih fun u hu => h u (List.mem_cons_of_mem v hu)⟩)

/-- The tokens of the fields of an object are exact if those of each value are. -/
theorem exact_fieldsTokens {fs : List (String × Value)}
    (h : ∀ f ∈ fs, ∀ after : List Token,
      (∀ t ∈ after, t.Exact) → ∀ t ∈ f.2.tokens after, t.Exact)
    {after : List Token} (hafter : ∀ t ∈ after, t.Exact) :
    ∀ t ∈ fieldsTokens fs after, t.Exact := by
  induction fs with
  | nil => exact hafter
  | cons f fs ih =>
    have hf := h f List.mem_cons_self
    cases fs with
    | nil =>
      exact List.forall_mem_cons.mpr ⟨trivial, List.forall_mem_cons.mpr ⟨trivial, hf after hafter⟩⟩
    | cons g fs =>
      have hrest := ih fun u hu => h u (List.mem_cons_of_mem f hu)
      exact List.forall_mem_cons.mpr ⟨trivial, List.forall_mem_cons.mpr
        ⟨trivial, hf _ (List.forall_mem_cons.mpr ⟨trivial, hrest⟩)⟩⟩

/-- The tokens of an exact document are exact. -/
theorem Exact.tokens {v : Value} (h : v.Exact) :
    ∀ after : List Token, (∀ t ∈ after, t.Exact) → ∀ t ∈ v.tokens after, t.Exact := by
  induction h with
  | null | bool b | string s => exact fun after hafter => List.forall_mem_cons.mpr ⟨trivial, hafter⟩
  | array _ ih =>
    exact fun after hafter => List.forall_mem_cons.mpr
      ⟨trivial, exact_listTokens ih (List.forall_mem_cons.mpr ⟨trivial, hafter⟩)⟩
  | object _ ih =>
    exact fun after hafter => List.forall_mem_cons.mpr
      ⟨trivial, exact_fieldsTokens ih (List.forall_mem_cons.mpr ⟨trivial, hafter⟩)⟩

/-- An exact document is read from every layout that has its tokens. -/
theorem Exact.parse?_join {v : Value} (h : v.Exact) {elements : List Layout}
    (hlayout : layoutTokens elements = v.tokens []) :
    parse? (.join (elements.map Layout.text)) = some v := by
  have hexact : ∀ t ∈ layoutTokens elements, t.Exact := by
    rw [hlayout]
    exact h.tokens [] (by simp)
  rw [parse?, String.toList_join, List.flatMap_map, tokens?_layout elements hexact, hlayout]
  exact ofTokens?_tokens v

/-- An exact document is read from its compact form. -/
theorem Exact.parse?_compact {v : Value} (h : v.Exact) : parse? v.compact = some v := by
  have htext : v.compact = .join (((v.tokens []).map Layout.token).map Layout.text) := by
    rw [List.map_map]
    rfl
  rw [htext]
  exact h.parse?_join (layoutTokens_map _)

/-- An exact document is read from its pretty form. -/
theorem Exact.parse?_pretty {v : Value} (h : v.Exact) : parse? v.pretty = some v :=
  h.parse?_join (layoutTokens_layout v 0 [])

/-- An exact document is readable. -/
theorem Exact.readable {v : Value} (h : v.Exact) : v.readable = true := by
  induction h with
  | null | bool b | string s => rfl
  | array _ ih => exact listReadable_iff.mpr ih
  | object _ ih => exact fieldsReadable_iff.mpr ih

end Value

end Idl.Json
