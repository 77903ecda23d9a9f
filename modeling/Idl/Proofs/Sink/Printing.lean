import Idl.Printing

/-!
# What a sink holds after printing

Printing a node writes the pieces of its text and nothing else, up to the first that does not fit
(`Printable.print_eq`). The piece that does not fit fills the sink, so that none of what comes later gets
into it. Hence a sink with room for `n` characters always holds the first `n` of all that was to be printed,
whichever pieces of whichever nodes did not fit: `Sink.holding` is the sink after a text, one piece takes it
to the sink after that text and the piece (`Sink.write_holding`), and so do all pieces of a node
(`Sink.print_holding`) and the nodes one after the other (`printing_keeps_front`).
-/

namespace Idl

/-! ## The pieces printed -/

/-- Writes pieces one after the other. -/
def writePieces (pieces : List String) : Printing Unit := pieces.forM writePiece

/-- The first piece is written before the others. -/
theorem writePieces_cons (piece : String) (pieces : List String) :
    writePieces (piece :: pieces) = (do writePiece piece; writePieces pieces) := rfl

namespace TypeExpr

/-- Whether printing a type is writing its pieces, in front of any others. -/
def PrintsPieces (a : TypeExpr) : Prop :=
  ∀ after, (do a.print; writePieces after) = writePieces (a.pieces after)

/-- Printing a list of types is writing its pieces. -/
theorem printList_bind {as : List TypeExpr} (has : ∀ a ∈ as, a.PrintsPieces) (after : List String) :
    (do printList as; writePieces after) = writePieces (listPieces as after) := by
  induction as with
  | nil => rfl
  | cons a as ih =>
    have ha := has a List.mem_cons_self
    have hrest := ih fun b hb => has b (List.mem_cons_of_mem a hb)
    cases as with
    | nil => exact ha after
    | cons b as =>
      rw [listPieces, ← ha, writePieces_cons, ← hrest]
      simp only [printList, bind_assoc]

/-- Printing a list of parameters is writing its pieces. -/
theorem printParams_bind {ps : List Param} (hps : ∀ p ∈ ps, p.type.PrintsPieces)
    (after : List String) :
    (do printParams ps; writePieces after) = writePieces (paramsPieces ps after) := by
  induction ps with
  | nil => rfl
  | cons p ps ih =>
    have ha : p.type.PrintsPieces := hps p List.mem_cons_self
    have hrest := ih fun q hq => hps q (List.mem_cons_of_mem p hq)
    cases ps with
    | nil =>
      rw [paramsPieces, writePieces_cons, writePieces_cons, ← ha]
      simp only [printParams, bind_assoc]
    | cons q ps =>
      rw [paramsPieces, writePieces_cons, writePieces_cons, ← ha, writePieces_cons, ← hrest]
      simp only [printParams, bind_assoc]

/-- Printing a type is writing its pieces. -/
theorem print_bind (a : TypeExpr) : a.PrintsPieces := by
  induction a with
  | named n =>
    intro after
    rfl
  | generic n as ih =>
    intro after
    rw [pieces, writePieces_cons, writePieces_cons, ← printList_bind ih, writePieces_cons]
    simp only [print, bind_assoc]
  | function ps r ihps ihr =>
    intro after
    cases r with
    | none =>
      rw [pieces, writePieces_cons, ← printParams_bind ihps, writePieces_cons]
      simp only [print, bind_assoc]
    | some r =>
      rw [pieces, writePieces_cons, ← printParams_bind ihps, writePieces_cons, writePieces_cons,
        ← ihr r rfl]
      simp only [print, bind_assoc]

end TypeExpr

namespace Declaration

/-- Printing enumerators is writing their pieces. -/
theorem printEnumerators_bind (ns after : List String) :
    (do printEnumerators ns; writePieces after) = writePieces (enumeratorPieces ns after) := by
  induction ns with
  | nil => rfl
  | cons n ns ih =>
    cases ns with
    | nil =>
      simp only [enumeratorPieces, writePieces_cons, printEnumerators, bind_assoc]
    | cons m ns =>
      simp only [enumeratorPieces, writePieces_cons, ← ih, printEnumerators, bind_assoc]

/-- Printing members is writing their pieces. -/
theorem printMembers_bind (ms : List Member) (after : List String) :
    (do printMembers ms; writePieces after) = writePieces (memberPieces ms after) := by
  induction ms with
  | nil => rfl
  | cons m ms ih =>
    rw [memberPieces, writePieces_cons, writePieces_cons, writePieces_cons, ← m.type.print_bind,
      writePieces_cons, ← ih]
    simp only [printMembers, bind_assoc]

/-- Printing a parent clause is writing its pieces. -/
theorem printParent_bind (parent : Option TypeExpr) (after : List String) :
    (do printParent parent; writePieces after) = writePieces (parentPieces parent after) := by
  cases parent with
  | none => rfl
  | some a =>
    rw [parentPieces, writePieces_cons, ← a.print_bind]
    simp only [printParent, bind_assoc]

/-- Printing a declaration is writing its pieces. -/
theorem print_bind (d : Declaration) (after : List String) :
    (do d.print; writePieces after) = writePieces (d.pieces after) := by
  cases d with
  | enum n u ns =>
    rw [pieces, writePieces_cons, writePieces_cons, writePieces_cons, ← u.print_bind,
      writePieces_cons, ← printEnumerators_bind, writePieces_cons]
    simp only [print, bind_assoc]
  | record form n parent members =>
    rw [pieces, writePieces_cons, writePieces_cons, writePieces_cons, ← printParent_bind,
      writePieces_cons, ← printMembers_bind, writePieces_cons]
    simp only [print, bind_assoc]

end Declaration

/-- Printing a program is writing its pieces. -/
theorem Program.print_eq (p : Program) : p.print = writePieces p.pieces := by
  unfold print pieces
  generalize p.toList = ds
  induction ds with
  | nil => rfl
  | cons d ds ih =>
    cases ds with
    | nil =>
      rw [listPieces, ← d.print_bind]
      exact bind_pure_unit.symm
    | cons e ds =>
      rw [listPieces, ← d.print_bind, writePieces_cons, ← ih, printList]

/-- Printing a node is writing its pieces. -/
theorem Printable.print_eq (x : Printable) : x.print = writePieces x.pieces := by
  cases x with
  | type a =>
    rw [pieces, ← a.print_bind]
    exact bind_pure_unit.symm
  | declaration d =>
    rw [pieces, ← d.print_bind]
    exact bind_pure_unit.symm
  | program p => exact p.print_eq

/-- The text of a node is its pieces put together. -/
theorem Printable.join_pieces (x : Printable) : String.join x.pieces = x.text := by
  cases x <;> rfl

/-! ## Sinks while printing -/

namespace Sink

/-- What an answer with a sink says in the terms of a printer. -/
def toRun : Bool × Sink → Except Unit Unit × Sink
  | (true, s) => (.ok (), s)
  | (false, s) => (.error (), s)

/-- Writing a piece leaves the sink that it does, with the same answer. -/
theorem run_writePiece (s : Sink) (piece : String) :
    (writePiece piece).run.run s = toRun (s.write piece) := by
  change writePiece piece s = _
  unfold writePiece
  rcases s.write piece with ⟨_ | _, t⟩ <;> rfl

/-- Writing pieces one after the other leaves the sink that writing them all does, with the same answer. -/
theorem run_writePieces (s : Sink) (pieces : List String) :
    (writePieces pieces).run.run s = toRun (s.writeAll pieces) := by
  induction pieces generalizing s with
  | nil => rfl
  | cons piece pieces ih =>
    rw [writePieces_cons, ExceptT.run_bind, StateT.run_bind, run_writePiece, writeAll]
    rcases s.write piece with ⟨_ | _, t⟩
    · rfl
    · exact ih t

/-- Printing a node into a sink is writing all pieces of its text. -/
theorem print_eq_writeAll (s : Sink) (x : Printable) : s.print x = s.writeAll x.pieces := by
  unfold print
  rw [x.print_eq, run_writePieces]
  rcases s.writeAll x.pieces with ⟨_ | _, t⟩ <;> rfl

/-- The sink with room for `n` characters that a text was written into. -/
def holding (n : Nat) (written : String) : Sink :=
  ⟨.ofList (written.toList.take n), some (n - written.length)⟩

/-- Before anything is written, all of the room is there. -/
theorem holding_empty (n : Nat) : holding n "" = ⟨"", some n⟩ := by
  simp [holding]

/-- Nothing more goes into a sink that is full. -/
theorem holding_append {n : Nat} {written : String} (h : n ≤ written.length) (text : String) :
    holding n (written ++ text) = holding n written := by
  have hroom : n - (written ++ text).length = n - written.length := by
    rw [String.length_append]
    omega
  unfold holding
  rw [hroom, String.toList_append, List.take_append_of_le_length (by rwa [String.length_toList])]

/-- Whether all of a text can be written behind another one into a sink with room for `n` characters: it is
blank, or what there is up to its end fits. -/
def Fits (n : Nat) (written text : String) : Prop := text = "" ∨ (written ++ text).length ≤ n

instance (n : Nat) (written text : String) : Decidable (Fits n written text) :=
  inferInstanceAs (Decidable (_ ∨ _))

/-- A text fits if there are as many characters of room as it has. -/
theorem fits_iff (n : Nat) (written text : String) :
    Fits n written text ↔ text.length ≤ n - written.length := by
  rw [Fits, ← String.length_eq_zero_iff, String.length_append]
  omega

/-- Two texts fit if the first does and the second fits behind it. -/
theorem fits_append (n : Nat) (written text more : String) :
    Fits n written (text ++ more) ↔ Fits n written text ∧ Fits n (written ++ text) more := by
  rw [fits_iff, fits_iff, fits_iff, String.length_append, String.length_append]
  omega

/-- Writing a piece says whether it fits, and in either case the sink holds the front of all that was to be
written. -/
theorem write_holding (n : Nat) (written piece : String) :
    (holding n written).write piece =
      (decide (Fits n written piece), holding n (written ++ piece)) := by
  have hfront : String.ofList (written.toList.take n) ++ .ofList (piece.toList.take (n - written.length)) =
      .ofList ((written ++ piece).toList.take n) := by
    rw [← String.ofList_append, String.toList_append, List.take_append, String.length_toList]
  unfold write holding
  dsimp only
  rw [String.length_append]
  by_cases hfit : piece.length ≤ n - written.length
  · have hwhole : piece.toList.take (n - written.length) = piece.toList :=
      List.take_of_length_le (by rwa [String.length_toList])
    rw [hwhole, String.ofList_toList] at hfront
    rw [if_pos hfit, hfront, Nat.sub_add_eq, decide_eq_true ((fits_iff n written piece).mpr hfit)]
  · have hfull : n - (written.length + piece.length) = 0 := by omega
    rw [if_neg hfit, hfront, hfull, decide_eq_false (mt (fits_iff n written piece).mp hfit)]

/-- Writing pieces says whether they fit together, and in either case the sink holds the front of all that was
to be written: the piece that does not fit fills the sink, and what comes after it is not missed. -/
theorem writeAll_holding (n : Nat) (written : String) (pieces : List String) :
    (holding n written).writeAll pieces =
      (decide (Fits n written (.join pieces)), holding n (written ++ .join pieces)) := by
  induction pieces generalizing written with
  | nil =>
    rw [String.join_nil, String.append_empty, decide_eq_true (.inl rfl)]
    rfl
  | cons piece pieces ih =>
    rw [writeAll, write_holding, String.join_cons, ← String.append_assoc]
    by_cases hfit : Fits n written piece
    · rw [decide_eq_true hfit]
      simp only [ih, fits_append, hfit, true_and]
    · have hfull : n ≤ (written ++ piece).length := by
        rw [fits_iff] at hfit
        rw [String.length_append]
        omega
      rw [decide_eq_false hfit, holding_append hfull]
      simp only [fits_append, hfit, false_and, decide_false]

/-- A sink without a limit takes in all pieces. -/
theorem writeAll_unlimited (written : String) (pieces : List String) :
    writeAll ⟨written, none⟩ pieces = (true, ⟨written ++ .join pieces, none⟩) := by
  induction pieces generalizing written with
  | nil => rw [String.join_nil, String.append_empty, writeAll]
  | cons piece pieces ih =>
    rw [String.join_cons, ← String.append_assoc, ← ih]
    rfl

/-- Printing a node says whether its text fits, and in either case the sink holds the front of all that was to
be written. -/
theorem print_holding (n : Nat) (written : String) (x : Printable) :
    (holding n written).print x =
      (decide (Fits n written x.text), holding n (written ++ x.text)) := by
  rw [print_eq_writeAll, writeAll_holding, x.join_pieces]

/-- A node is printed whole into a sink without a limit. -/
theorem print_unlimited (written : String) (x : Printable) :
    print ⟨written, none⟩ x = (true, ⟨written ++ x.text, none⟩) := by
  rw [print_eq_writeAll, writeAll_unlimited, x.join_pieces]

end Sink

/-! ## Nodes one after the other -/

/-- The texts of nodes, one behind the other. -/
def textOf (nodes : List Printable) : String := .join (nodes.map Printable.text)

/-- The first node's text is in front. -/
theorem textOf_cons (x : Printable) (nodes : List Printable) :
    textOf (x :: nodes) = x.text ++ textOf nodes := String.join_cons

/-- The texts up to a node are those in front of it and its own. -/
theorem textOf_take_add_one {nodes : List Printable} {i : Nat} {x : Printable} (hx : nodes[i]? = some x) :
    textOf (nodes.take (i + 1)) = textOf (nodes.take i) ++ x.text := by
  simp [List.take_add_one, hx, textOf]

/-- What every node does to a sink that some text went into, each of several does behind the texts of those
before it, whether these fitted or not. -/
theorem Sink.getElem?_printEach (sinkWith : String → Sink) (fits : String → String → Bool)
    (hstep : ∀ written x, (sinkWith written).print x =
      (fits written (Printable.text x), sinkWith (written ++ x.text)))
    (written : String) {nodes : List Printable} {i : Nat} {x : Printable} (hx : nodes[i]? = some x) :
    ((sinkWith written).printEach nodes)[i]? =
      some (fits (written ++ textOf (nodes.take i)) x.text,
        sinkWith (written ++ textOf (nodes.take (i + 1)))) := by
  induction nodes generalizing written i with
  | nil => contradiction
  | cons y nodes ih =>
    rw [printEach, hstep]
    cases i with
    | zero =>
      obtain rfl : y = x := Option.some.inj hx
      simp [textOf]
    | succ i =>
      rw [List.take_succ_cons, List.take_succ_cons, textOf_cons, textOf_cons, ← String.append_assoc,
        ← String.append_assoc]
      exact ih (written ++ y.text) hx

/-- What printing nodes one after the other into one sink guarantees. -/
structure PrintingKeepsFront : Prop where
  /-- Printing a node writes the pieces of its text in order, and stops at the first that does not fit. -/
  pieces : ∀ (s : Sink) (x : Printable), s.print x = s.writeAll x.pieces
  /-- A sink with room for `n` characters holds the first `n` of all texts up to that of the node last
  printed, and that node was printed whole if its text is blank or all the texts together fit. -/
  limited : ∀ (n : Nat) (nodes : List Printable) (i : Nat) (x : Printable), nodes[i]? = some x →
    ∃ whole sink, (Sink.printEach ⟨"", some n⟩ nodes)[i]? = some (whole, sink) ∧
      sink.text = .ofList ((textOf (nodes.take (i + 1))).toList.take n) ∧
      (whole = true ↔ x.text = "" ∨ (textOf (nodes.take (i + 1))).length ≤ n)
  /-- Into a sink without a limit every node is printed whole, and it holds all texts. -/
  unlimited : ∀ (nodes : List Printable) (i : Nat), i < nodes.length →
    (Sink.printEach ⟨"", none⟩ nodes)[i]? = some (true, ⟨textOf (nodes.take (i + 1)), none⟩)

/-- Printing keeps the front of what is to be printed, and reports each node of which something is missing. -/
theorem printing_keeps_front : PrintingKeepsFront where
  pieces := Sink.print_eq_writeAll
  limited n nodes i x hx := by
    have hrun := Sink.getElem?_printEach (Sink.holding n) (fun w t => decide (Sink.Fits n w t))
      (Sink.print_holding n) "" hx
    rw [Sink.holding_empty, String.empty_append, String.empty_append] at hrun
    refine ⟨_, _, hrun, rfl, ?_⟩
    rw [decide_eq_true_iff, textOf_take_add_one hx]
    rfl
  unlimited nodes i hi := by
    have hrun := Sink.getElem?_printEach (fun w => ⟨w, none⟩) (fun _ _ => true) Sink.print_unlimited ""
      (List.getElem?_eq_getElem hi)
    rwa [String.empty_append] at hrun

/-- The arguments of a type that did not fit are not written by the steps after it. -/
example : Sink.printEach ⟨"", some 6⟩
    [.type (.generic "List" [.named "int"]), .type (.named ""), .type (.named "float")] =
      [(false, ⟨"List(i", some 0⟩), (true, ⟨"List(i", some 0⟩), (false, ⟨"List(i", some 0⟩)] := by
  decide

end Idl
