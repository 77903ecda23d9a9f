import Idl.Proofs.Source.Canonical

/-!
# The pieces of canonical text

Each function that lays out a part of a program puts its own pieces in front of those that follow, and does
not look at these (`TypeExpr.pieces_append`, `Declaration.pieces_append`). So the text of a program is the
texts of its declarations with line breaks in between (`Program.text_append_break`).

The pieces are names and a fixed stock of others, so what holds of these holds of them all
(`Program.forall_pieces`).
-/

namespace Idl

/-! ## Pieces in front of others -/

namespace TypeExpr

/-- Whether the pieces of a type stay the same whatever follows them. -/
def LaidInFront (a : TypeExpr) : Prop := ∀ xs ys, a.pieces (xs ++ ys) = a.pieces xs ++ ys

/-- The pieces of a list of types stay the same whatever follows them. -/
theorem listPieces_append {as : List TypeExpr} (has : ∀ a ∈ as, a.LaidInFront) (xs ys : List String) :
    listPieces as (xs ++ ys) = listPieces as xs ++ ys := by
  induction as with
  | nil => rfl
  | cons a as ih =>
    have ha := has a List.mem_cons_self
    have hrest := ih fun b hb => has b (List.mem_cons_of_mem a hb)
    cases as with
    | nil => exact ha xs ys
    | cons b as => rw [listPieces, listPieces, hrest, ← List.cons_append, ha]

/-- The pieces of a list of parameters stay the same whatever follows them. -/
theorem paramsPieces_append {ps : List Param} (hps : ∀ p ∈ ps, p.type.LaidInFront)
    (xs ys : List String) : paramsPieces ps (xs ++ ys) = paramsPieces ps xs ++ ys := by
  induction ps with
  | nil => rfl
  | cons p ps ih =>
    have ha : p.type.LaidInFront := hps p List.mem_cons_self
    have hrest := ih fun q hq => hps q (List.mem_cons_of_mem p hq)
    cases ps with
    | nil => rw [paramsPieces, paramsPieces, ha, List.cons_append, List.cons_append]
    | cons q ps =>
      rw [paramsPieces, paramsPieces, hrest, ← List.cons_append, ha, List.cons_append,
        List.cons_append]

/-- The pieces of a type stay the same whatever follows them. -/
theorem pieces_append (a : TypeExpr) : a.LaidInFront := by
  induction a with
  | named n =>
    intro xs ys
    rfl
  | generic n as ih =>
    intro xs ys
    rw [pieces, pieces, ← List.cons_append, listPieces_append ih]
    rfl
  | function ps r ihps ihr =>
    intro xs ys
    cases r with
    | none =>
      rw [pieces, pieces, ← List.cons_append, paramsPieces_append ihps]
      rfl
    | some r =>
      rw [pieces, pieces, ihr r rfl, ← List.cons_append, ← List.cons_append, paramsPieces_append ihps]
      rfl

end TypeExpr

namespace Declaration

/-- The pieces of enumerators stay the same whatever follows them. -/
theorem enumeratorPieces_append (ns xs ys : List String) :
    enumeratorPieces ns (xs ++ ys) = enumeratorPieces ns xs ++ ys := by
  induction ns with
  | nil => rfl
  | cons n ns ih =>
    cases ns with
    | nil => rfl
    | cons m ns =>
      rw [enumeratorPieces, enumeratorPieces, ih]
      rfl

/-- The pieces of members stay the same whatever follows them. -/
theorem memberPieces_append (ms : List Member) (xs ys : List String) :
    memberPieces ms (xs ++ ys) = memberPieces ms xs ++ ys := by
  induction ms with
  | nil => rfl
  | cons m ms ih =>
    rw [memberPieces, memberPieces, ih, ← List.cons_append, m.type.pieces_append]
    rfl

/-- The pieces of a parent clause stay the same whatever follows them. -/
theorem parentPieces_append (parent : Option TypeExpr) (xs ys : List String) :
    parentPieces parent (xs ++ ys) = parentPieces parent xs ++ ys := by
  cases parent with
  | none => rfl
  | some a =>
    rw [parentPieces, parentPieces, a.pieces_append]
    rfl

/-- The pieces of a declaration stay the same whatever follows them. -/
theorem pieces_append (decl : Declaration) (xs ys : List String) :
    decl.pieces (xs ++ ys) = decl.pieces xs ++ ys := by
  cases decl with
  | enum n u ns =>
    rw [pieces, pieces, ← List.cons_append, enumeratorPieces_append, ← List.cons_append,
      u.pieces_append]
    rfl
  | record form n parent members =>
    rw [pieces, pieces, ← List.cons_append, memberPieces_append, ← List.cons_append,
      parentPieces_append]
    rfl

end Declaration

namespace Program

/-- Behind each declaration of a program stands a line break, if one stands behind them all. -/
theorem join_listPieces (d : Declaration) (ds : List Declaration) :
    String.join (listPieces (d :: ds)) ++ "\n" =
      .join ((d :: ds).map fun e => e.text ++ "\n") := by
  rw [← String.toList_inj, String.toList_append, String.toList_join, String.toList_join]
  induction ds generalizing d with
  | nil => simp [listPieces, Declaration.text, String.toList_join]
  | cons e ds ih =>
    have hfront : listPieces (d :: e :: ds) = d.pieces [] ++ "\n" :: listPieces (e :: ds) :=
      d.pieces_append [] _
    rw [hfront, List.flatMap_append, List.flatMap_cons, List.append_assoc, List.append_assoc, ih]
    simp [Declaration.text, String.toList_join]

/-- The text of a program that is not empty, with a line break behind it, is the text of each declaration
with a line break behind that. -/
theorem text_append_break {p : Program} (h : p.toList ≠ []) :
    p.text ++ "\n" = .join (p.toList.map fun d => d.text ++ "\n") := by
  obtain ⟨d, ds, hds⟩ := List.exists_cons_of_ne_nil h
  rw [text, pieces, hds, join_listPieces]

end Program

/-! ## What pieces there are -/

/-- The pieces that are no names. -/
def fixedPieces : List String :=
  ["(", ")", ", ", ": ", " -> ", "enum ", "struct", "interface", " ", " : ", " \x7b\n", Declaration.indent,
    ",", "\n", ";\n", "\x7d"]

section

variable {P : String → Prop}

namespace TypeExpr

/-- Whether the pieces of a type have a property in front of any that have it. -/
def PiecesKeep (P : String → Prop) (a : TypeExpr) : Prop :=
  ∀ after, (∀ s ∈ after, P s) → ∀ s ∈ a.pieces after, P s

/-- The pieces of a list of types have a property if those of each do. -/
theorem forall_listPieces (hfixed : ∀ s ∈ fixedPieces, P s) {as : List TypeExpr}
    (has : ∀ a ∈ as, a.PiecesKeep P) {after : List String} (hafter : ∀ s ∈ after, P s) :
    ∀ s ∈ listPieces as after, P s := by
  induction as with
  | nil => exact hafter
  | cons a as ih =>
    have ha := has a List.mem_cons_self
    have hrest := ih fun b hb => has b (List.mem_cons_of_mem a hb)
    cases as with
    | nil => exact ha after hafter
    | cons b as => exact ha _ (List.forall_mem_cons.mpr ⟨hfixed _ (by decide), hrest⟩)

/-- The pieces of a list of parameters have a property if their names do, and those of their types. -/
theorem forall_paramsPieces (hfixed : ∀ s ∈ fixedPieces, P s) {ps : List Param}
    (hps : ∀ p ∈ ps, P p.name ∧ p.type.PiecesKeep P) {after : List String} (hafter : ∀ s ∈ after, P s) :
    ∀ s ∈ paramsPieces ps after, P s := by
  induction ps with
  | nil => exact hafter
  | cons p ps ih =>
    obtain ⟨hn, ha⟩ := hps p List.mem_cons_self
    have hrest := ih fun q hq => hps q (List.mem_cons_of_mem p hq)
    have hlabel : ∀ after, (∀ s ∈ after, P s) → ∀ s ∈ p.name :: ": " :: p.type.pieces after, P s :=
      fun after hafter =>
        List.forall_mem_cons.mpr
          ⟨hn, List.forall_mem_cons.mpr ⟨hfixed _ (by decide), ha after hafter⟩⟩
    cases ps with
    | nil => exact hlabel after hafter
    | cons q ps => exact hlabel _ (List.forall_mem_cons.mpr ⟨hfixed _ (by decide), hrest⟩)

/-- The pieces of a type have a property if its names do. -/
theorem forall_pieces (hfixed : ∀ s ∈ fixedPieces, P s) {a : TypeExpr} (hnames : ∀ n ∈ a.names, P n) :
    a.PiecesKeep P := by
  have hopen := hfixed "(" (by decide)
  have hclose := hfixed ")" (by decide)
  induction a with
  | named n =>
    intro after hafter
    exact List.forall_mem_cons.mpr ⟨hnames n (List.mem_singleton_self n), hafter⟩
  | generic n as ih =>
    intro after hafter
    obtain ⟨hn, hsub⟩ := List.forall_mem_cons.mp hnames
    have has : ∀ a ∈ as, a.PiecesKeep P := fun a ha =>
      ih a ha fun m hm => hsub m (mem_listNames.mpr ⟨a, ha, hm⟩)
    have hargs := forall_listPieces hfixed has (List.forall_mem_cons.mpr ⟨hclose, hafter⟩)
    exact List.forall_mem_cons.mpr ⟨hn, List.forall_mem_cons.mpr ⟨hopen, hargs⟩⟩
  | function ps r ihps ihr =>
    intro after hafter
    have hparams : (∀ n ∈ paramsNames ps, P n) → ∀ p ∈ ps, P p.name ∧ p.type.PiecesKeep P :=
      fun hsub p hp => ⟨hsub p.name (mem_paramsNames.mpr ⟨p, hp, .inl rfl⟩),
        ihps p hp fun m hm => hsub m (mem_paramsNames.mpr ⟨p, hp, .inr hm⟩)⟩
    cases r with
    | none =>
      have hbehind := List.forall_mem_cons.mpr ⟨hclose, hafter⟩
      exact List.forall_mem_cons.mpr ⟨hopen, forall_paramsPieces hfixed (hparams hnames) hbehind⟩
    | some r =>
      obtain ⟨hps, hr⟩ := List.forall_mem_append.mp hnames
      have hbehind := List.forall_mem_cons.mpr ⟨hclose,
        List.forall_mem_cons.mpr ⟨hfixed " -> " (by decide), ihr r rfl hr after hafter⟩⟩
      exact List.forall_mem_cons.mpr ⟨hopen, forall_paramsPieces hfixed (hparams hps) hbehind⟩

end TypeExpr

namespace Declaration

/-- The pieces of enumerators have a property if their names do. -/
theorem forall_enumeratorPieces (hfixed : ∀ s ∈ fixedPieces, P s) {ns : List String}
    (hns : ∀ n ∈ ns, P n) {after : List String} (hafter : ∀ s ∈ after, P s) :
    ∀ s ∈ enumeratorPieces ns after, P s := by
  have hbreak := hfixed "\n" (by decide)
  induction ns with
  | nil => exact hafter
  | cons n ns ih =>
    obtain ⟨hn, hrest⟩ := List.forall_mem_cons.mp hns
    have hline : ∀ after, (∀ s ∈ after, P s) → ∀ s ∈ indent :: n :: after, P s := fun after hafter =>
      List.forall_mem_cons.mpr ⟨hfixed _ (by decide), List.forall_mem_cons.mpr ⟨hn, hafter⟩⟩
    cases ns with
    | nil => exact hline _ (List.forall_mem_cons.mpr ⟨hbreak, hafter⟩)
    | cons m ns =>
      exact hline _ (List.forall_mem_cons.mpr ⟨hfixed _ (by decide),
        List.forall_mem_cons.mpr ⟨hbreak, ih hrest⟩⟩)

/-- The pieces of members have a property if their names do, and those in their types. -/
theorem forall_memberPieces (hfixed : ∀ s ∈ fixedPieces, P s) {ms : List Member}
    (hms : ∀ m ∈ ms, P m.name ∧ ∀ n ∈ m.type.names, P n) {after : List String}
    (hafter : ∀ s ∈ after, P s) : ∀ s ∈ memberPieces ms after, P s := by
  induction ms with
  | nil => exact hafter
  | cons m ms ih =>
    obtain ⟨hn, hnames⟩ := hms m List.mem_cons_self
    have hrest := ih fun m' hm' => hms m' (List.mem_cons_of_mem m hm')
    have htype := TypeExpr.forall_pieces hfixed hnames (";\n" :: memberPieces ms after)
      (List.forall_mem_cons.mpr ⟨hfixed _ (by decide), hrest⟩)
    exact List.forall_mem_cons.mpr ⟨hfixed _ (by decide), List.forall_mem_cons.mpr ⟨hn,
      List.forall_mem_cons.mpr ⟨hfixed _ (by decide), htype⟩⟩⟩

/-- The pieces of a declaration have a property if its names do. -/
theorem forall_pieces (hfixed : ∀ s ∈ fixedPieces, P s) {decl : Declaration}
    (hnames : ∀ n ∈ decl.names, P n) {after : List String} (hafter : ∀ s ∈ after, P s) :
    ∀ s ∈ decl.pieces after, P s := by
  have hcolon := hfixed " : " (by decide)
  have hopen := hfixed " \x7b\n" (by decide)
  have hbehind : ∀ s ∈ "\x7d" :: after, P s := List.forall_mem_cons.mpr ⟨hfixed _ (by decide), hafter⟩
  cases decl with
  | enum n u ns =>
    obtain ⟨hn, hnames⟩ := List.forall_mem_cons.mp hnames
    obtain ⟨hu, hns⟩ := List.forall_mem_append.mp hnames
    have hbody := List.forall_mem_cons.mpr ⟨hopen, forall_enumeratorPieces hfixed hns hbehind⟩
    exact List.forall_mem_cons.mpr ⟨hfixed _ (by decide), List.forall_mem_cons.mpr ⟨hn,
      List.forall_mem_cons.mpr ⟨hcolon, TypeExpr.forall_pieces hfixed hu _ hbody⟩⟩⟩
  | record form n parent members =>
    obtain ⟨hn, hnames⟩ := List.forall_mem_cons.mp hnames
    obtain ⟨hparent, hmembers⟩ := List.forall_mem_append.mp hnames
    have hms : ∀ m ∈ members, P m.name ∧ ∀ k ∈ m.type.names, P k := fun m hm =>
      List.forall_mem_cons.mp fun k hk => hmembers k (List.mem_flatMap.mpr ⟨m, hm, hk⟩)
    have hbody := List.forall_mem_cons.mpr ⟨hopen, forall_memberPieces hfixed hms hbehind⟩
    have hclause : ∀ s ∈ parentPieces parent (" \x7b\n" :: memberPieces members ("\x7d" :: after)), P s := by
      cases parent with
      | none => exact hbody
      | some a =>
        have ha : ∀ k ∈ a.names, P k := fun k hk =>
          hparent k (List.mem_flatMap.mpr ⟨a, List.mem_singleton_self a, hk⟩)
        exact List.forall_mem_cons.mpr ⟨hcolon, TypeExpr.forall_pieces hfixed ha _ hbody⟩
    have hform : form.keyword ∈ fixedPieces := by cases form <;> decide
    exact List.forall_mem_cons.mpr ⟨hfixed _ hform, List.forall_mem_cons.mpr ⟨hfixed _ (by decide),
      List.forall_mem_cons.mpr ⟨hn, hclause⟩⟩⟩

end Declaration

/-- The pieces of a program have a property if its names do. -/
theorem Program.forall_pieces (hfixed : ∀ s ∈ fixedPieces, P s) {p : Program}
    (hnames : ∀ e ∈ p.toList, ∀ n ∈ e.names, P n) : ∀ s ∈ p.pieces, P s := by
  unfold pieces
  generalize p.toList = ds at hnames
  induction ds with
  | nil =>
    intro s hs
    contradiction
  | cons e ds ih =>
    obtain ⟨he, hds⟩ := List.forall_mem_cons.mp hnames
    cases ds with
    | nil => exact Declaration.forall_pieces hfixed he fun s hs => by contradiction
    | cons f ds =>
      exact Declaration.forall_pieces hfixed he
        (List.forall_mem_cons.mpr ⟨hfixed _ (by decide), ih hds⟩)

end

end Idl
