import Idl.Proofs.Grammar.Limits
import Idl.Proofs.Source.Locations
import Idl.Proofs.Source.Nodes

/-!
# Where nesting is too deep

The canonical text of a program is read up to the first type expression that has as many others around it
as the limit says, whatever mixture of arguments, parameters and results leads there. What is printed in
front of it makes up tokens of its own (`Leads`), and these lead to a place where a type may begin inside
as many open ones (`TypeStack.StopsAt`, `Progress.StopsAt`): everything that ends in front of it nests less
deep.

So the error is at the first token of that type expression (`too_deep_at_first_node`).
-/

namespace Idl

open Grammar

/-! ## What is printed in front -/

/-- Whether some pieces read as some symbols in front of whatever is printed behind them: the last symbol is
no word, which could be longer. -/
structure Leads (d : Dialect) (front : List String) (ss : List Symbol) : Prop where
  /-- By themselves, the pieces read as the symbols. -/
  reads : Reads d (charsOf front) ss
  /-- The last symbol is no word. -/
  last : ∀ s ∈ ss.getLast?, s.kind ≠ .identifier

namespace Leads

variable {d : Dialect} {front : List String} {ss : List Symbol}

/-- Nothing is read of nothing. -/
theorem nil (d : Dialect) : Leads d [] [] where
  reads := .nil d
  last := by simp

/-- Symbols behind a mark end with no word if they do not by themselves. -/
theorem last_append_mark (h : Leads d front ss) (before : List Symbol) (kind : TokenKind)
    (hkind : kind ≠ .identifier) :
    ∀ s ∈ (before ++ [Symbol.mark kind] ++ ss).getLast?, s.kind ≠ .identifier := by
  intro s hs
  rw [List.getLast?_append, List.getLast?_concat] at hs
  cases hlast : ss.getLast? with
  | none =>
    rw [hlast] at hs
    cases hs
    exact hkind
  | some t =>
    rw [hlast] at hs
    cases hs
    exact h.last s hlast

/-- The parenthesis of parameters in front. -/
theorem openParams (h : Leads d front ss) : Leads d ("(" :: front) ([.mark .leftParen] ++ ss) where
  reads := .mark rfl h.reads
  last := h.last_append_mark [] .leftParen (by decide)

/-- A name and the parenthesis of its arguments in front. -/
theorem openArguments {n : String} (hn : isWord n = true) (h : Leads d front ss) :
    Leads d (n :: "(" :: front) ([.word n, .mark .leftParen] ++ ss) where
  reads := .word hn (endsWord_cons rfl _) (.mark rfl h.reads)
  last := h.last_append_mark [.word n] .leftParen (by decide)

/-- A name and a colon in front. -/
theorem label {n : String} (hn : isWord n = true) (h : Leads d front ss) :
    Leads d (n :: ": " :: front) ([.word n, .mark .colon] ++ ss) where
  reads := .label hn h.reads
  last := h.last_append_mark [.word n] .colon (by decide)

/-- A type and a comma in front. -/
theorem typeComma {a : TypeExpr} (ha : a.ReadsBack d) (h : Leads d front ss) :
    Leads d (a.pieces (", " :: front)) (a.symbols ++ [.mark .comma] ++ ss) where
  reads := by
    rw [List.append_assoc]
    exact ha _ _ h.reads.comma (endsWord_cons rfl _)
  last := h.last_append_mark a.symbols .comma (by decide)

/-- The parameters of a function and its arrow in front. -/
theorem paramsArrow {ps : List Param} (hps : ∀ p ∈ ps, isWord p.name = true ∧ p.type.ReadsBack d)
    (h : Leads d front ss) :
    Leads d ("(" :: TypeExpr.paramsPieces ps (")" :: " -> " :: front))
      (.mark .leftParen :: (TypeExpr.paramsSymbols ps ++ [.mark .rightParen]) ++ [.mark .arrow] ++ ss) where
  reads := by
    have harrow : Reads d (charsOf (" -> " :: front)) (.mark .arrow :: ss) :=
      .blank rfl (.arrow (.blank rfl h.reads))
    have hclose : Reads d (charsOf (")" :: " -> " :: front)) (.mark .rightParen :: .mark .arrow :: ss) :=
      .mark rfl harrow
    have hparams := TypeExpr.reads_paramsPieces hps hclose (endsWord_cons rfl _)
    rw [List.append_assoc, List.cons_append, List.append_assoc]
    exact .mark rfl hparams
  last := h.last_append_mark _ .arrow (by decide)

/-- What opens a record with a parent in front. -/
theorem parentLabel {n : String} (hn : isWord n = true) (form : RecordForm) (h : Leads d front ss) :
    Leads d (form.keyword :: " " :: n :: " : " :: front)
      ([.word form.keyword, .word n, .mark .colon] ++ ss) where
  reads := by
    have hcolon : Reads d (charsOf (" : " :: front)) (.mark .colon :: ss) :=
      .blank rfl (.mark rfl (.blank rfl h.reads))
    have hname := Reads.word hn (endsWord_cons rfl _) hcolon
    have hform : isWord form.keyword = true := by cases form <;> rfl
    exact .word hform (endsWord_cons rfl _) (.blank (c := ' ') rfl hname)
  last := h.last_append_mark [.word form.keyword, .word n] .colon (by decide)

/-- A record up to its opening brace in front. -/
theorem recordHead (head : RecordHead) (hn : isWord head.name = true)
    (hparent : ∀ a ∈ head.parent, ∀ m ∈ a.names, isWord m = true) (h : Leads d front ss) :
    Leads d (head.form.keyword :: " " :: head.name ::
      Declaration.parentPieces head.parent (" \x7b\n" :: front)) (head.symbols ++ ss) where
  reads := Declaration.reads_recordHead head hn hparent h.reads
  last := h.last_append_mark
    (.word head.form.keyword :: .word head.name :: Declaration.parentSymbols head.parent) .leftBrace (by decide)

/-- The name of a member and a colon in front. -/
theorem memberLabel {n : String} (hn : isWord n = true) (h : Leads d front ss) :
    Leads d (Declaration.indent :: n :: ": " :: front) ([.word n, .mark .colon] ++ ss) where
  reads := Declaration.reads_indent (.label hn h.reads)
  last := h.last_append_mark [.word n] .colon (by decide)

/-- A member in front. -/
theorem member {m : Member} (hn : isWord m.name = true) (hnames : ∀ n ∈ m.type.names, isWord n = true)
    (h : Leads d front ss) :
    Leads d (Declaration.indent :: m.name :: ": " :: m.type.pieces (";\n" :: front))
      (Declaration.memberSymbols m ++ ss) where
  reads := Declaration.reads_member hn hnames h.reads
  last := h.last_append_mark (.word m.name :: .mark .colon :: m.type.symbols) .semicolon (by decide)

/-- A declaration and a line break in front. -/
theorem declaration {decl : Declaration} (hnames : ∀ n ∈ decl.names, isWord n = true)
    (h : Leads d front ss) : Leads d (decl.pieces ("\n" :: front)) (decl.symbols ++ ss) where
  reads := Declaration.reads_pieces hnames (.blank rfl h.reads)
  last := by
    obtain ⟨before, hbefore⟩ := decl.exists_symbols_concat
    rw [hbefore]
    exact h.last_append_mark before .rightBrace (by decide)

end Leads

namespace Grammar

/-! ## Types -/

namespace TypeStack

/-- Whether a type may begin inside some frames: one is to begin in front of every token but a parenthesis
that closes an empty list. -/
def IsBefore (s : TypeStack) (frames : List Frame) : Prop :=
  ∀ t : Token, t.kind ≠ .rightParen → Awaits (some t) s frames

/-- A type may begin before a type. -/
theorem isBefore_start (frames : List Frame) : IsBefore ⟨frames, .start⟩ frames := fun _ _ => .start frames

/-- A type may begin behind the parenthesis that opens arguments. -/
theorem isBefore_firstArgument (n : String) (frames : List Frame) :
    IsBefore ⟨frames, .firstArgument n⟩ (.argument n [] :: frames) := by
  intro t ht
  refine .firstArgument n frames fun u hu => ?_
  cases hu
  exact ht

variable {limit : Option Nat} {s s₁ : TypeStack} {frames : List Frame}

/-- Where a type may begin, symbols are read as they are before a type. -/
theorem IsBefore.reads?_cons (h : s.IsBefore frames) {symbol : Symbol} (hkind : symbol.kind ≠ .rightParen)
    (ss : List Symbol) : s.reads? limit (symbol :: ss) = reads? limit ⟨frames, .start⟩ (symbol :: ss) := by
  rw [TypeStack.reads?_cons, TypeStack.reads?_cons, read?, read?, (h (tokenOf symbol) hkind).step_eq,
    step_start]

/-- Where a type may begin, the symbols of one lead through it. -/
theorem IsBefore.reads?_symbols (h : s.IsBefore frames) (a : TypeExpr)
    (hroom : Within limit (frames.length + a.depth)) : s.reads? limit a.symbols = some (behind a frames) := by
  obtain ⟨symbol, ss, hss, hkind⟩ := a.symbols_eq_cons
  have hreads := TypeStack.reads?_symbols limit a frames hroom
  rw [hss] at hreads ⊢
  rw [h.reads?_cons hkind, hreads]

/-- Where a type may begin and there is room for it, a name and a parenthesis lead to its arguments. -/
theorem IsBefore.reads?_openArguments (h : s.IsBefore frames) (hroom : Within limit (frames.length + 1))
    (n : String) :
    s.reads? limit [.word n, .mark .leftParen] = some ⟨frames, .firstArgument n⟩ := by
  rw [h.reads?_cons (by simp [Symbol.word]), TypeStack.reads?_cons, read?_start_word hroom]
  rfl

/-- Where a type may begin and there is room for it, a parenthesis leads to its parameters. -/
theorem IsBefore.reads?_openParams (h : s.IsBefore frames) (hroom : Within limit (frames.length + 1)) :
    s.reads? limit [.mark .leftParen] = some ⟨frames, .firstParam⟩ := by
  rw [h.reads?_cons (by decide), TypeStack.reads?_cons, read?_start_leftParen hroom]
  rfl

/-- Where a type may begin and there is room for it and its parameters, these and the arrow lead to its
result. -/
theorem IsBefore.reads?_paramsArrow (h : s.IsBefore frames) {ps : List Param}
    (hroom : Within limit (frames.length + 1 + TypeExpr.paramsDepth ps)) :
    s.reads? limit (.mark .leftParen :: (TypeExpr.paramsSymbols ps ++ [.mark .rightParen]) ++
      [.mark .arrow]) = some ⟨.result ps :: frames, .start⟩ := by
  have hparams := reads?_params frames (fun p _ => TypeStack.reads?_symbols limit p.type) hroom
  rw [reads?_append, h.reads?_cons (by decide), hparams]
  rfl

/-- Whether reading goes over what is printed in front of a type expression, to a place where a type may
begin inside as many open ones as the limit says, and the names in the type expression are words. -/
structure StopsAt (d : Dialect) (l : Nat) (s : TypeStack) (x : TypeNode) : Prop where
  /-- The names in the type expression are words. -/
  words : ∀ n ∈ x.type.names, isWord n = true
  /-- What is in front is read. -/
  reads : ∃ ss s' frames, Leads d x.front ss ∧ s.reads? (some l) ss = some s' ∧ s'.IsBefore frames ∧
    frames.length = l

/-- What is read first may be printed in front. -/
theorem StopsAt.after {d : Dialect} {l : Nat} {x y : TypeNode} (h : s₁.StopsAt d l x)
    (read : List Symbol) (htype : y.type = x.type) (hread : s.reads? (some l) read = some s₁)
    (hfront : ∀ ss, Leads d x.front ss → Leads d y.front (read ++ ss)) : s.StopsAt d l y where
  words := htype ▸ h.words
  reads := by
    obtain ⟨ss, s', frames, hleads, hreads, hbefore⟩ := h.reads
    refine ⟨read ++ ss, s', frames, hfront ss hleads, ?_, hbefore⟩
    rw [reads?_append, hread, Option.bind_some, hreads]

end TypeStack

end Grammar

open TypeStack

/-- As many levels as a limit says are within it. -/
theorem within_some {l n : Nat} (h : n ≤ l) : Within (some l) n := by
  intro k hk
  cases hk
  exact h

namespace TypeExpr

/-- Whether reading stops in a type at the first type expression that is as deep as the limit says, if
there is one, wherever the type stands. -/
def StopsAtFirst (d : Dialect) (l : Nat) (a : TypeExpr) : Prop :=
  ∀ (m : Nat) (s : TypeStack) (frames : List Frame) (x : TypeNode), s.IsBefore frames →
    frames.length + m = l → a.nodes.find? (·.levels = m) = some x → s.StopsAt d l x

variable {d : Dialect} {l m : Nat} {s : TypeStack} {frames : List Frame} {x : TypeNode}

/-- Reading stops in a list of arguments at the first type expression that is deep enough. -/
theorem stopsAt_listNodes {as : List TypeExpr} (has : ∀ a ∈ as, a.ReadsBack d ∧ a.StopsAtFirst d l)
    {n : String} {before : List TypeExpr} (hs : s.IsBefore (.argument n before :: frames))
    (hm : frames.length + 1 + m = l) (hx : (listNodes as).find? (·.levels = m) = some x) :
    s.StopsAt d l x := by
  induction as generalizing before s x with
  | nil => contradiction
  | cons a as ih =>
    obtain ⟨hreads, hstops⟩ := has a List.mem_cons_self
    rw [listNodes] at hx
    rcases TypeNode.find?_append_eq_some hx with hx | ⟨hnone, hx⟩
    · exact hstops m s _ x hs hm hx
    -- The first argument nests less deep, so it is read as a whole.
    · obtain ⟨y, hy, rfl⟩ := TypeNode.exists_of_find?_behind hx
      have hroom : Within (some l) (frames.length + 1 + a.depth) :=
        within_some (hm ▸ Nat.add_le_add_left (a.depth_le_of_nodes m hnone) _)
      have hread : s.reads? (some l) (a.symbols ++ [.mark .comma]) =
          some ⟨.argument n (a :: before) :: frames, .start⟩ := by
        rw [reads?_append, hs.reads?_symbols a hroom, Option.bind_some, TypeStack.reads?_cons,
          read?_behind_argument_comma]
        rfl
      have hrest := ih (fun b hb => has b (List.mem_cons_of_mem a hb))
        (isBefore_start (.argument n (a :: before) :: frames)) hy
      exact hrest.after _ rfl hread fun ss => Leads.typeComma hreads

/-- Reading stops in a list of parameters at the first type expression that is deep enough. -/
theorem stopsAt_paramsNodes {ps : List Param}
    (hps : ∀ p ∈ ps, isWord p.name = true ∧ p.type.ReadsBack d ∧ p.type.StopsAtFirst d l)
    {before : List Param}
    (hs : ∀ n, s.read? (some l) (.word n) = some ⟨frames, .paramColon before n⟩)
    (hm : frames.length + 1 + m = l) (hx : (paramsNodes ps).find? (·.levels = m) = some x) :
    s.StopsAt d l x := by
  induction ps generalizing before s x with
  | nil => contradiction
  | cons p ps ih =>
    obtain ⟨n, a⟩ := p
    obtain ⟨hn, hreads, hstops⟩ := hps ⟨n, a⟩ List.mem_cons_self
    have hlabel : s.reads? (some l) [.word n, .mark .colon] =
        some ⟨.param before n :: frames, .start⟩ := by
      rw [TypeStack.reads?_cons, hs n]
      rfl
    rw [paramsNodes] at hx
    rcases TypeNode.find?_append_eq_some hx with hx | ⟨hnone, hx⟩
    · obtain ⟨y, hy, rfl⟩ := TypeNode.exists_of_find?_behind hx
      have hfirst := hstops m _ _ y (isBefore_start (.param before n :: frames)) hm hy
      exact hfirst.after _ rfl hlabel fun ss => Leads.label hn
    · obtain ⟨y, hy, rfl⟩ := TypeNode.exists_of_find?_behind hx
      rw [List.forall_mem_map] at hnone
      have hdepth : a.depth ≤ m := a.depth_le_of_nodes m hnone
      have hroom : Within (some l) (frames.length + 1 + a.depth) :=
        within_some (hm ▸ Nat.add_le_add_left hdepth _)
      have htype := (isBefore_start (.param before n :: frames)).reads?_symbols a hroom
      have hread : reads? (some l) ⟨.param before n :: frames, .start⟩ (a.symbols ++ [.mark .comma]) =
          some ⟨frames, .nextParam (⟨n, a⟩ :: before)⟩ := by
        rw [reads?_append, htype, Option.bind_some, TypeStack.reads?_cons, read?_behind_param_comma]
        rfl
      have hrest := ih (fun q hq => hps q (List.mem_cons_of_mem _ hq))
        (s := ⟨frames, .nextParam (⟨n, a⟩ :: before)⟩) (fun _ => rfl) hy
      have hbehind := hrest.after (y := y.behind fun front => a.pieces (", " :: front)) _ rfl hread
        fun ss => Leads.typeComma hreads
      exact hbehind.after _ rfl hlabel fun ss => Leads.label hn

/-- Reading stops in front of a type that is deep enough, and it is enough to know of the type expressions
in it that reading stops at the first of them that is. -/
theorem stopsAtFirst_of_succ {a : TypeExpr} (hnames : ∀ n ∈ a.names, isWord n = true)
    (h : ∀ (m : Nat) (s : TypeStack) (frames : List Frame) (x : TypeNode), s.IsBefore frames →
      frames.length + 1 + m = l → a.nodes.find? (·.levels = m + 1) = some x → s.StopsAt d l x) :
    a.StopsAtFirst d l := by
  intro m s frames x hs hm hx
  cases m with
  | zero =>
    rw [find?_nodes_zero] at hx
    cases Option.some.inj hx
    exact ⟨hnames, [], s, frames, .nil d, rfl, hs, hm⟩
  | succ m => exact h m s frames x hs (by omega) hx

/-- Reading stops in a type at the first type expression that is deep enough. -/
theorem stopsAtFirst {a : TypeExpr} (hnames : ∀ n ∈ a.names, isWord n = true) : a.StopsAtFirst d l := by
  induction a with
  | named n =>
    refine stopsAtFirst_of_succ hnames fun m s frames x _ _ hx => ?_
    contradiction
  | generic n as ih =>
    refine stopsAtFirst_of_succ hnames fun m s frames x hs hm hx => ?_
    obtain ⟨y, hy, rfl⟩ := TypeNode.exists_of_find?_inside hx
    obtain ⟨hn, hsub⟩ := List.forall_mem_cons.mp hnames
    have has : ∀ a ∈ as, a.ReadsBack d ∧ a.StopsAtFirst d l := by
      intro a ha
      have hwords : ∀ m ∈ a.names, isWord m = true := fun m hm => hsub m (mem_listNames.mpr ⟨a, ha, hm⟩)
      exact ⟨reads_pieces hwords, ih a ha hwords⟩
    have hread := hs.reads?_openArguments (within_some (l := l) (by omega)) n
    have hargs := stopsAt_listNodes has (isBefore_firstArgument n frames) hm hy
    exact hargs.after _ rfl hread fun ss => Leads.openArguments hn
  | function ps r ihps ihr =>
    refine stopsAtFirst_of_succ hnames fun m s frames x hs hm hx => ?_
    have hparams : (∀ n ∈ paramsNames ps, isWord n = true) →
        ∀ p ∈ ps, isWord p.name = true ∧ p.type.ReadsBack d ∧ p.type.StopsAtFirst d l := by
      intro hsub p hp
      have hwords : ∀ m ∈ p.type.names, isWord m = true := fun m hm =>
        hsub m (mem_paramsNames.mpr ⟨p, hp, .inr hm⟩)
      exact ⟨hsub p.name (mem_paramsNames.mpr ⟨p, hp, .inl rfl⟩), reads_pieces hwords, ihps p hp hwords⟩
    have hopen := hs.reads?_openParams (within_some (l := l) (by omega))
    cases r with
    | none =>
      obtain ⟨y, hy, rfl⟩ := TypeNode.exists_of_find?_inside hx
      have hstops := stopsAt_paramsNodes (hparams hnames) (s := ⟨frames, .firstParam⟩) (fun _ => rfl) hm hy
      exact hstops.after _ rfl hopen fun ss => Leads.openParams
    | some r =>
      obtain ⟨hps, hr⟩ := List.forall_mem_append.mp hnames
      rw [nodes, List.find?_cons_of_neg (by simp [TypeNode.outermost])] at hx
      rcases TypeNode.find?_append_eq_some hx with hx | ⟨hnone, hx⟩
      · obtain ⟨y, hy, rfl⟩ := TypeNode.exists_of_find?_inside hx
        have hstops := stopsAt_paramsNodes (hparams hps) (s := ⟨frames, .firstParam⟩) (fun _ => rfl) hm hy
        exact hstops.after _ rfl hopen fun ss => Leads.openParams
      -- The parameters nest less deep, and the result is a level further in.
      · obtain ⟨y, hy, rfl⟩ := TypeNode.exists_of_find?_inside hx
        rw [List.forall_mem_map] at hnone
        have hdepth : paramsDepth ps ≤ m :=
          paramsDepth_le_of_nodes (fun p _ => p.type.depth_le_of_nodes) (levels_ne_of_inside hnone)
        have hroom : Within (some l) (frames.length + 1 + paramsDepth ps) := within_some (by omega)
        have hread := hs.reads?_paramsArrow hroom
        have hstops := ihr r rfl hr m _ _ y (isBefore_start (.result ps :: frames)) hm hy
        have htexts : ∀ p ∈ ps, isWord p.name = true ∧ p.type.ReadsBack d := fun p hp =>
          ⟨(hparams hps p hp).1, (hparams hps p hp).2.1⟩
        exact hstops.after _ rfl hread fun ss => Leads.paramsArrow htexts

end TypeExpr

/-! ## Programs -/

namespace Grammar.Progress

open Declaration

/-- Whether a walk goes over what is printed in front of a type expression, to a place where a type may
begin inside as many open ones as the limit says, and the names in the type expression are words. -/
structure StopsAt (d : Dialect) (l : Nat) (s : Progress) (x : TypeNode) : Prop where
  /-- The names in the type expression are words. -/
  words : ∀ n ∈ x.type.names, isWord n = true
  /-- What is in front is walked over. -/
  walks : ∃ ss s' frames, Leads d x.front ss ∧ s.walk? (some l) (ss.map tokenOf) = some s' ∧
    (∀ t : Token, t.kind ≠ .rightParen → s'.place.Awaits (some t) frames) ∧ frames.length = l

variable {d : Dialect} {l : Nat} {s s₁ : Progress} {x : TypeNode}

/-- What is walked over first may be printed in front. -/
theorem StopsAt.after {y : TypeNode} (h : s₁.StopsAt d l x) (read : List Symbol) (htype : y.type = x.type)
    (hread : s.walk? (some l) (read.map tokenOf) = some s₁)
    (hfront : ∀ ss, Leads d x.front ss → Leads d y.front (read ++ ss)) : s.StopsAt d l y where
  words := htype ▸ h.words
  walks := by
    obtain ⟨ss, s', frames, hleads, hwalk, hawaits⟩ := h.walks
    refine ⟨read ++ ss, s', frames, hfront ss hleads, ?_, hawaits⟩
    rw [List.map_append, walk?_append, hread, Option.bind_some, hwalk]

/-- A walk stops in a type of a declaration at the first type expression that is deep enough. -/
theorem stopsAt_type (around : TypeStack → Place)
    (haround : ∀ {stack t next}, stack.step (some l) t = .next next →
      (around stack).step? (some l) t = some (.next (around next)))
    (hstack : ∀ stack, (around stack).stack? = some stack) (done : List Declaration) {a : TypeExpr}
    (hnames : ∀ n ∈ a.names, isWord n = true) (hx : a.nodes.find? (·.levels = l) = some x) :
    StopsAt d l ⟨done, around .start⟩ x := by
  have hstops : TypeStack.start.StopsAt d l x :=
    TypeExpr.stopsAtFirst hnames l .start [] x (isBefore_start []) (Nat.zero_add l) hx
  obtain ⟨ss, stack, frames, hleads, hreads, hbefore, hlength⟩ := hstops.reads
  have hwalk := walk?_of_reads? around haround done hreads
  have hawaits : ∀ t : Token, t.kind ≠ .rightParen → (around stack).Awaits (some t) frames :=
    fun t ht => ⟨stack, hstack stack, hbefore t ht⟩
  exact ⟨hstops.words, ss, ⟨done, around stack⟩, frames, hleads, hwalk, hawaits, hlength⟩

/-- A walk stops in members at the first type expression that is deep enough. -/
theorem stopsAt_memberNodes (done : List Declaration) (head : RecordHead) (before : List Member)
    {ms : List Member} (hms : ∀ m ∈ ms, isWord m.name = true ∧ ∀ n ∈ m.type.names, isWord n = true)
    (hx : (memberNodes ms).find? (·.levels = l) = some x) : StopsAt d l ⟨done, .member head before⟩ x := by
  induction ms generalizing before x with
  | nil => contradiction
  | cons m ms ih =>
    obtain ⟨hn, hnames⟩ := hms m List.mem_cons_self
    rw [memberNodes] at hx
    rcases TypeNode.find?_append_eq_some hx with hx | ⟨hnone, hx⟩
    · obtain ⟨y, hy, rfl⟩ := TypeNode.exists_of_find?_behind hx
      have htype : StopsAt d l ⟨done, .memberType head before m.name .start⟩ y := by
        refine stopsAt_type (.memberType head before m.name) ?_ (fun _ => rfl) done hnames hy
        intro stack t next hstep
        simp only [Place.step?, hstep]
      exact htype.after [.word m.name, .mark .colon] rfl rfl fun ss => Leads.memberLabel hn
    · obtain ⟨y, hy, rfl⟩ := TypeNode.exists_of_find?_behind hx
      rw [List.forall_mem_map] at hnone
      have hfits : Within (some l) m.type.depth := within_some (m.type.depth_le_of_nodes l hnone)
      have hrest := ih (m :: before) (fun m' hm' => hms m' (List.mem_cons_of_mem m hm')) hy
      exact hrest.after _ rfl (walk?_member done head before hfits) fun ss => Leads.member hn hnames

/-- A walk stops in a record at the first type expression that is deep enough. -/
theorem stopsAt_record (done : List Declaration) (head : RecordHead) {members : List Member}
    (hn : isWord head.name = true) (hparent : ∀ a ∈ head.parent, ∀ m ∈ a.names, isWord m = true)
    (hms : ∀ m ∈ members, isWord m.name = true ∧ ∀ n ∈ m.type.names, isWord n = true)
    (hx : (record head.form head.name head.parent members).nodes.find? (·.levels = l) = some x) :
    StopsAt d l ⟨done, .keyword⟩ x := by
  rw [nodes] at hx
  rcases TypeNode.find?_append_eq_some hx with hx | ⟨hnone, hx⟩
  · obtain ⟨y, hy, rfl⟩ := TypeNode.exists_of_find?_behind hx
    obtain ⟨form, n, parent⟩ := head
    cases parent with
    | none => contradiction
    | some a =>
      obtain ⟨z, hz, rfl⟩ := TypeNode.exists_of_find?_behind hy
      have htype : StopsAt d l ⟨done, .parent form n .start⟩ z := by
        refine stopsAt_type (.parent form n) ?_ (fun _ => rfl) done (hparent a rfl) hz
        intro stack t next hstep
        simp only [Place.step?, hstep]
      have hhead : walk? (some l) ⟨done, .keyword⟩
          ([Symbol.word form.keyword, .word n, .mark .colon].map tokenOf) =
            some ⟨done, .parent form n .start⟩ := by
        rw [walk?_recordName]
        rfl
      exact htype.after _ rfl hhead fun ss => Leads.parentLabel hn form
  · obtain ⟨y, hy, rfl⟩ := TypeNode.exists_of_find?_behind hx
    rw [List.forall_mem_map] at hnone
    -- The parent nests less deep, so the head of the record is walked over.
    have hfits : ∀ a ∈ head.parent, Within (some l) a.depth := by
      intro a ha
      rw [Option.mem_def.mp ha, parentNodes, List.forall_mem_map] at hnone
      exact within_some (a.depth_le_of_nodes l hnone)
    have hbody : StopsAt d l ⟨done, .member head []⟩ y := stopsAt_memberNodes done head [] hms hy
    exact hbody.after _ rfl (walk?_recordHead done head hfits) fun ss => Leads.recordHead head hn hparent

/-- A walk stops in a declaration at the first type expression that is deep enough. -/
theorem stopsAt_declaration (done : List Declaration) {decl : Declaration} (hplain : decl.isPlain)
    (hnames : ∀ n ∈ decl.names, isWord n = true) (hl : 0 < l)
    (hx : decl.nodes.find? (·.levels = l) = some x) : StopsAt d l ⟨done, .keyword⟩ x := by
  cases decl with
  | enum n u ns =>
    cases u with
    | named u =>
      -- Nothing is around the only type expression of an enumeration.
      have hlevels := List.find?_some hx
      obtain rfl := List.mem_singleton.mp (List.mem_of_find?_eq_some hx)
      exact absurd (of_decide_eq_true hlevels) (Nat.ne_of_lt hl)
    | generic => contradiction
    | function => contradiction
  | record form n parent members =>
    obtain ⟨hn, hnames⟩ := List.forall_mem_cons.mp hnames
    obtain ⟨hparent, hmembers⟩ := List.forall_mem_append.mp hnames
    have hps : ∀ a ∈ parent, ∀ m ∈ a.names, isWord m = true := fun a ha m hm =>
      hparent m (List.mem_flatMap.mpr ⟨a, Option.mem_toList.mpr ha, hm⟩)
    have hms : ∀ m ∈ members, isWord m.name = true ∧ ∀ k ∈ m.type.names, isWord k = true :=
      fun m hm => List.forall_mem_cons.mp fun k hk => hmembers k (List.mem_flatMap.mpr ⟨m, hm, hk⟩)
    exact stopsAt_record done ⟨form, n, parent⟩ hn hps hms hx

/-- A walk stops in declarations at the first type expression that is deep enough. -/
theorem stopsAt_listNodes (done : List Declaration) {ds : List Declaration}
    (hds : ∀ e ∈ ds, e.isPlain ∧ ∀ n ∈ e.names, isWord n = true) (hl : 0 < l)
    (hx : (Program.listNodes ds).find? (·.levels = l) = some x) : StopsAt d l ⟨done, .keyword⟩ x := by
  induction ds generalizing done x with
  | nil => contradiction
  | cons e ds ih =>
    obtain ⟨hplain, hnames⟩ := hds e List.mem_cons_self
    rw [Program.listNodes] at hx
    rcases TypeNode.find?_append_eq_some hx with hx | ⟨hnone, hx⟩
    · exact stopsAt_declaration done hplain hnames hl hx
    · obtain ⟨y, hy, rfl⟩ := TypeNode.exists_of_find?_behind hx
      have hfits : e.Fits (some l) := fun a ha => within_some (e.depth_le_of_nodes hnone a ha)
      have hrest := ih (e :: done) (fun f hf => hds f (List.mem_cons_of_mem e hf)) hy
      exact hrest.after _ rfl (walk?_declaration done hplain hfits) fun ss => Leads.declaration hnames

end Grammar.Progress

/-! ## The token behind -/

/-- The characters of words are bytes. -/
theorem utf8Size_of_isWordChar {c : Char} (h : isWordChar c = true) : c.utf8Size = 1 := by
  have hle : c.val ≤ 127 := by
    rcases (Bool.or_eq_true _ _).mp h with hword | hunderscore
    · rcases (Bool.or_eq_true _ _).mp hword with hletter | hdigit
      · rcases (Bool.or_eq_true _ _).mp hletter with hupper | hlower
        · exact UInt32.le_trans (of_decide_eq_true hupper).2 (by decide)
        · exact UInt32.le_trans (of_decide_eq_true ((Bool.and_eq_true _ _).mp hlower).2) (by decide)
      · exact UInt32.le_trans (of_decide_eq_true ((Bool.and_eq_true _ _).mp hdigit).2) (by decide)
    · obtain rfl : c = '_' := of_decide_eq_true hunderscore
      decide
  exact if_pos hle

/-- The characters of a word are bytes. -/
theorem utf8Size_of_isWord {n : String} (h : isWord n = true) : ∀ c ∈ n.toList, c.utf8Size = 1 := by
  cases htext : n.toList with
  | nil => simp
  | cons c cs =>
    rw [isWord, htext, Bool.and_eq_true, List.all_eq_true] at h
    have hstart : isWordChar c = true := by
      unfold isWordStart at h
      simp only [isWordChar, Char.isAlphanum, Bool.or_eq_true] at h ⊢
      exact h.1.imp_left .inl
    exact List.forall_mem_cons.mpr
      ⟨utf8Size_of_isWordChar hstart, fun e he => utf8Size_of_isWordChar (h.2 e he)⟩

/-- Where each character is a byte, bytes and characters are counted alike. -/
theorem Position.bytes_eq_chars {cs : List Char} (h : ∀ c ∈ cs, c.utf8Size = 1) :
    (ofChars cs).bytes = (ofChars cs).chars := by
  induction cs with
  | nil => rfl
  | cons c cs ih =>
    obtain ⟨hc, hcs⟩ := List.forall_mem_cons.mp h
    rw [ofChars_cons, bytes_add, chars_add, ih hcs]
    exact congrArg (0 + · + (ofChars cs).chars) hc

/-- Each character of the pieces of a program whose names are words is a byte. -/
theorem Program.utf8Size_pieces {p : Program} (hwords : ∀ e ∈ p.toList, ∀ n ∈ e.names, isWord n = true) :
    ∀ s ∈ p.pieces, ∀ c ∈ s.toList, c.utf8Size = 1 := by
  have hall : fixedPieces.all fun s => s.toList.all fun c => c.utf8Size == 1 := by decide
  have hfixed : ∀ s ∈ fixedPieces, ∀ c ∈ s.toList, c.utf8Size = 1 := by simpa using hall
  exact p.forall_pieces hfixed fun e he n hn => utf8Size_of_isWord (hwords e he n hn)

/-- The pieces of a type of words begin with its first lexeme. -/
theorem TypeExpr.exists_firstLexeme {a : TypeExpr} (hwords : ∀ n ∈ a.names, isWord n = true)
    {after : List String} (hends : EndsWord (charsOf after)) :
    ∃ kind rest, charsOf (a.pieces after) = a.firstLexeme.toList ++ rest ∧
      IsLexeme kind a.firstLexeme.toList ∧ Maximal kind rest ∧ kind ≠ .rightParen := by
  cases a with
  | named n =>
    exact ⟨.identifier, charsOf after, rfl, isLexeme_of_isWord (hwords n (List.mem_singleton_self n)),
      fun _ => hends, by decide⟩
  | generic n as =>
    exact ⟨.identifier, charsOf ("(" :: listPieces as (")" :: after)), rfl,
      isLexeme_of_isWord (hwords n List.mem_cons_self), fun _ => endsWord_cons rfl _, by decide⟩
  | function ps r =>
    have hparen : IsLexeme .leftParen "(".toList := .mark (c := '(') (by decide)
    cases r with
    | none => exact ⟨.leftParen, _, rfl, hparen, fun hword => by contradiction, by decide⟩
    | some r => exact ⟨.leftParen, _, rfl, hparen, fun hword => by contradiction, by decide⟩

/-- The first token of a text that begins with a lexeme. -/
theorem exists_token_of_lexeme {d : Dialect} {kind : TokenKind} {text rest : List Char} {source : String}
    {ts : List Token} (hlexeme : IsLexeme kind text) (hmaximal : Maximal kind rest)
    (hsource : source.toList = text ++ rest) (hts : tokenize d source = .ok ts) :
    ∃ more, ts = ⟨kind, .ofList text, .start⟩ :: more := by
  have hskip : skipGap d (text ++ rest) .start = ⟨text ++ rest, .start⟩ :=
    skipGap_of_none (hlexeme.gapUnit? d rest .start)
  have hread : lexeme? (text ++ rest) = some ⟨kind, text, rest⟩ :=
    lexeme?_eq_some_iff.mpr ⟨rfl, hlexeme, hmaximal⟩
  have hscan := Layout.scan_of_lexeme [] hskip (hlexeme.afterOpener? d rest) hread
  rw [tokenize, Cursor.tokens, Cursor.ofString, hsource, hscan] at hts
  have hbehind := scan_eq_answerBehind d [⟨kind, .ofList text, .start⟩] rest (.ofChars text)
  rw [List.reverse_singleton] at hbehind
  rw [Position.start_add, hbehind] at hts
  cases hrest : tokenize d (.ofList rest) with
  | error e =>
    rw [hrest] at hts
    contradiction
  | ok us =>
    rw [hrest] at hts
    cases hts
    exact ⟨_, rfl⟩

/-- The tokens of a text in front of which some pieces are printed: those that the pieces make up, and the
text's own. -/
theorem Leads.exists_tokens {d : Dialect} {front : List String} {ss : List Symbol} (h : Leads d front ss)
    {text : String} {ts : List Token} (hts : tokenize d (.join front ++ text) = .ok ts) :
    ∃ lexemes us, ts = lexemes ++ us.map (Token.shift (.ofString (.join front))) ∧
      lexemes.map Token.symbol = ss ∧ tokenize d text = .ok us := by
  obtain ⟨l, hl, htext, hsymbols⟩ := h.reads
  have hjoin : l.text = (String.join front).toList := htext.trans String.toList_join.symm
  have hlast : ∀ x ∈ l.segments.getLast?, Maximal x.kind (l.tail ++ text.toList) := by
    intro x hx hword
    have hmem : x.symbol ∈ ss.getLast? := by
      rw [← hsymbols, List.getLast?_map, Option.mem_def.mp hx]
      rfl
    refine absurd ?_ (h.last x.symbol hmem)
    rw [Segment.symbol, Token.kind_symbol]
    exact hword
  rw [tokenize_append hl hjoin hlast] at hts
  cases htoks : tokenize d text with
  | error e =>
    rw [htoks] at hts
    contradiction
  | ok us =>
    rw [htoks] at hts
    cases hts
    exact ⟨l.lexemesAt .start, us, rfl, (l.symbols_lexemesAt .start).trans hsymbols, rfl⟩

/-- Where reading stops at a type expression, nesting is found to be too deep at its first lexeme, if what is
printed behind does not run into it. -/
theorem Grammar.Progress.StopsAt.exists_tooDeepAt {d : Dialect} {l : Nat} {x : TypeNode}
    (h : Progress.start.StopsAt d l x) {after : List String} (hends : EndsWord (charsOf after))
    {ts : List Token} (hts : tokenize d (.join x.front ++ .join (x.type.pieces after)) = .ok ts) :
    ∃ k kind, TooDeepAt l ts k ∧ kind ≠ .endOfInput ∧
      ts[k]? = some ⟨kind, x.type.firstLexeme, .ofString (.join x.front)⟩ := by
  obtain ⟨ss, s, frames, hleads, hwalk, hawaits, hlength⟩ := h.walks
  -- The tokens in front, then the first lexeme of the type expression, then others.
  obtain ⟨lexemes, us, hsplit, hsymbols, hus⟩ := hleads.exists_tokens hts
  obtain ⟨kind, rest, hrest, hlexeme, hmaximal, hkind⟩ := x.type.exists_firstLexeme h.words hends
  obtain ⟨more, rfl⟩ := exists_token_of_lexeme hlexeme hmaximal (String.toList_join.trans hrest) hus
  rw [List.map_cons, String.ofList_toList] at hsplit
  have hget : ts[lexemes.length]? = some ⟨kind, x.type.firstLexeme, .ofString (.join x.front)⟩ := by
    rw [hsplit, List.getElem?_append_right (Nat.le_refl _), Nat.sub_self]
    rfl
  refine ⟨lexemes.length, kind, ?_, hlexeme.ne_endOfInput, hget⟩
  refine tooDeepAt_of_walk? (s := s) ?_ ?_ ?_ hlength
  · rw [hsplit, List.length_append]
    exact Nat.le_add_right _ _
  · rw [hsplit, List.take_left, ← Progress.walk?_tokenOf, hsymbols]
    exact hwalk
  · rw [hget]
    exact hawaits _ hkind

/-- In front of anything in the canonical text of a program of words, bytes and characters are counted
alike. -/
theorem Program.bytes_eq_chars {p : Program} (hwords : ∀ e ∈ p.toList, ∀ n ∈ e.names, isWord n = true)
    {front behind : List String} (hpieces : p.pieces = front ++ behind) :
    (Position.ofString (.join front)).bytes = (Position.ofString (.join front)).chars := by
  refine Position.bytes_eq_chars fun c hc => ?_
  rw [String.toList_join] at hc
  obtain ⟨piece, hpiece, hc⟩ := List.mem_flatMap.mp hc
  exact utf8Size_pieces hwords piece (hpieces ▸ List.mem_append_left _ hpiece) c hc

/-- If a type of a program of words nests too deep, its canonical text is read up to the first type
expression that has 256 others around it, which is printed in front of all others that do. The error is at
that type expression, at which nesting is found to be too deep, and behind as many characters as are
printed in front of it, which is as many bytes. -/
theorem too_deep_at_first_node {p : Program} (hwords : ∀ e ∈ p.toList, ∀ n ∈ e.names, isWord n = true)
    (hplain : ∀ e ∈ p.toList, e.isPlain) (hdeep : ∃ e ∈ p.toList, ∃ a ∈ e.types, 256 < a.depth)
    (d : Dialect) :
    ∃ x e, p.nodes.find? (·.levels = 256) = some x ∧
      (∃ after, p.pieces = x.front ++ x.type.pieces after) ∧
      (∀ y ∈ p.nodes, y.levels = 256 → x.front <+: y.front) ∧
      parseSource d p.text = .error (.parse e) ∧
      e.diagnostic.help = some "type nesting too deep" ∧
      e.token.position.chars = (String.join x.front).length ∧
      e.diagnostic.label.span.start = (String.join x.front).length ∧
      e.token.describe = s!"'{x.type.firstLexeme}'" := by
  obtain ⟨x, hx⟩ := Program.exists_find?_nodes hdeep
  obtain ⟨after, hends, hpieces⟩ := p.printed.printed x (List.mem_of_find?_eq_some hx)
  have hfirst := p.printed.front_le_of_find? hx
  have hstops : Progress.start.StopsAt d 256 x :=
    Progress.stopsAt_listNodes [] (fun e he => ⟨hplain e he, hwords e he⟩) (by decide) hx
  have htext : p.text = .join x.front ++ .join (x.type.pieces after) := by
    rw [Program.text, hpieces, String.join_append]
  obtain ⟨l, hl, hltext, -⟩ := Program.reads_text (d := d) hwords
  have hts := hl.tokenize_eq_ok hltext
  rw [htext] at hts
  obtain ⟨k, kind, ⟨e, herror, hhelp, -, htoken⟩, hkind, hget⟩ := hstops.exists_tooDeepAt hends hts
  rw [hget, Option.getD_some] at htoken
  have hchars : e.token.position.chars = (String.join x.front).length := by
    rw [htoken]
    exact Position.chars_ofString _
  refine ⟨x, e, hx, ⟨after, hpieces⟩, hfirst, ?_, hhelp, hchars, ?_, ?_⟩
  · rw [htext]
    exact parseSource_eq_parse_iff.mpr ⟨l.tokens, hts, herror⟩
  · show e.token.position.bytes = _
    rw [← hchars, htoken]
    exact Program.bytes_eq_chars hwords hpieces
  · rw [Token.describe_of_kind_ne (by rw [htoken]; exact hkind), htoken]

/-! ## Lists of lists -/

/-- A type with so many lists around it. -/
def TypeExpr.nested (a : TypeExpr) : Nat → TypeExpr
  | 0 => a
  | n + 1 => .generic "List" [a.nested n]

/-- The lists around a type are printed in front of it. -/
theorem TypeExpr.find?_nodes_nested (a : TypeExpr) (n : Nat) :
    (a.nested n).nodes.find? (·.levels = n) =
      some ⟨(List.replicate n ["List", "("]).flatten, n, a⟩ := by
  induction n with
  | zero => exact a.find?_nodes_zero
  | succ n ih =>
    rw [nested, nodes, List.find?_cons_of_neg (by simp [TypeNode.outermost]), TypeNode.find?_map_inside,
      listNodes, listNodes, List.map_nil, List.append_nil, ih]
    rfl

/-- The name inside 256 lists is what nests too deep. -/
theorem too_deep_at_first_node_nested :
    let p := Program.ofList [.record .struct "A" none [⟨"x", (TypeExpr.named "int").nested 256⟩]]
    ∃ e, parseSource {} p.text = .error (.parse e) ∧
      e.diagnostic.help = some "type nesting too deep" ∧ e.token.position.chars = 1298 ∧
      e.diagnostic.label.span.start = 1298 ∧ e.token.describe = "'int'" := by
  intro p
  have hwords : ∀ e ∈ p.toList, ∀ n ∈ e.names, isWord n = true := by decide +kernel
  have hplain : ∀ e ∈ p.toList, e.isPlain := by simp [p, Declaration.isPlain]
  have hdeep : ∃ e ∈ p.toList, ∃ a ∈ e.types, 256 < a.depth := by decide +kernel
  have hfirst : p.nodes.find? (·.levels = 256) =
      some ⟨["struct", " ", "A", " \x7b\n", "    ", "x", ": "] ++
        (List.replicate 256 ["List", "("]).flatten, 256, .named "int"⟩ := by
    simp only [p, Program.nodes, Program.toList_ofList, Program.listNodes, Declaration.nodes,
      Declaration.parentNodes, Declaration.memberNodes, List.map_nil, List.append_nil, List.nil_append,
      TypeNode.find?_map_behind, TypeExpr.find?_nodes_nested]
    rfl
  obtain ⟨x, e, hx, -, -, herror, hhelp, hchars, hstart, hfound⟩ :=
    too_deep_at_first_node hwords hplain hdeep {}
  rw [hfirst] at hx
  cases hx
  rw [String.length_join] at hchars hstart
  exact ⟨e, herror, hhelp, hchars.trans (by decide +kernel), hstart.trans (by decide +kernel), hfound⟩

end Idl
