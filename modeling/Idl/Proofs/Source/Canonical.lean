import Idl.Printer
import Idl.Proofs.Grammar.Spelling
import Idl.Proofs.Token.Layout

/-!
# Canonical text, read back

The canonical text of a program is laid out as the symbols that spell the program, provided that all
its names are words (`Program.reads_text`). `Reads` says of a text which symbols it is laid out as. A
blank in front changes nothing, a mark or a word in front adds its symbol, and a word needs something
behind it that it cannot run into. Every piece of a canonical text is of these, so the theorem follows
the pieces: each `pieces` function in front of a text that reads as some symbols makes one that reads
as its own symbols and those.

No comment is ever printed, so this does not depend on the dialect.
-/

namespace Idl

/-! ## Texts and the symbols they read as -/

/-- What the grammar sees of the lexeme of a segment. -/
def Segment.symbol (x : Segment) : Symbol := (Token.mk x.kind (.ofList x.text) .start).symbol

/-- A word is a lexeme. -/
theorem isLexeme_of_isWord {n : String} (h : isWord n = true) : IsLexeme .identifier n.toList := by
  unfold isWord at h
  split at h
  · contradiction
  · next c cs hcons =>
    rw [Bool.and_eq_true, List.all_eq_true] at h
    rw [hcons]
    exact .word h.1 h.2

/-- Whether a text has a valid layout in which the grammar sees the symbols. -/
def Reads (d : Dialect) (cs : List Char) (ss : List Symbol) : Prop :=
  ∃ l : Layout, l.Valid d ∧ l.text = cs ∧ l.segments.map Segment.symbol = ss

namespace Reads

variable {d : Dialect} {cs : List Char} {ss : List Symbol}

/-- The empty text reads as no symbols. -/
theorem nil (d : Dialect) : Reads d [] [] := ⟨⟨[], []⟩, .nil .nil, rfl, rfl⟩

/-- A blank in front of a text does not change what it reads as. -/
theorem blank {c : Char} (hblank : isBlank c = true) (h : Reads d cs ss) : Reads d (c :: cs) ss := by
  obtain ⟨l, hl, rfl, rfl⟩ := h
  cases hl with
  | @nil tail hgap => exact ⟨⟨[], c :: tail⟩, .nil (.blank hblank hgap), rfl, rfl⟩
  | @cons x l hx hl =>
    exact ⟨.cons { x with gap := c :: x.gap } l,
      .cons ⟨.blank hblank hx.gap, hx.lexeme, hx.maximal⟩ hl, rfl, rfl⟩

/-- A lexeme in front of a text that does not make it longer adds its symbol. -/
theorem lexeme {kind : TokenKind} {text : List Char} (hlexeme : IsLexeme kind text)
    (hmaximal : Maximal kind cs) (h : Reads d cs ss) :
    Reads d (text ++ cs) ((Segment.mk [] kind text).symbol :: ss) := by
  obtain ⟨l, hl, rfl, rfl⟩ := h
  exact ⟨.cons ⟨[], kind, text⟩ l, .cons ⟨.nil, hlexeme, hmaximal⟩ hl, Layout.text_cons _ _, rfl⟩

/-- A mark in front of a text adds its symbol. -/
theorem mark {c : Char} {kind : TokenKind} (hmark : mark? c = some kind) (h : Reads d cs ss) :
    Reads d (c :: cs) (.mark kind :: ss) := by
  have hmark := mark?_eq_some_iff.mp hmark
  have hkind := (kind_of_mark hmark).1
  have hsymbol : (Segment.mk [] kind [c]).symbol = .mark kind := Token.symbol_mark rfl hkind
  rw [← hsymbol]
  exact lexeme (.mark hmark) (fun hword => absurd hword hkind) h

/-- An arrow in front of a text adds its symbol. -/
theorem arrow (h : Reads d cs ss) : Reads d ('-' :: '>' :: cs) (.mark .arrow :: ss) :=
  lexeme .arrow (fun hword => by simp at hword) h

/-- A word in front of a text that does not go on with it adds its symbol. -/
theorem word {n : String} (hn : isWord n = true) (hends : EndsWord cs) (h : Reads d cs ss) :
    Reads d (n.toList ++ cs) (.word n :: ss) := by
  have hlexeme := isLexeme_of_isWord hn
  have hsymbol : (Segment.mk [] .identifier n.toList).symbol = .word n := by
    show Symbol.word (.ofList n.toList) = .word n
    rw [String.ofList_toList]
  rw [← hsymbol]
  exact lexeme hlexeme (fun _ => hends) h

end Reads

/-! ## The names in a program -/

namespace TypeExpr

mutual

/-- The names in a type. -/
def names : TypeExpr → List String
  | named n => [n]
  | generic n as => n :: listNames as
  | function ps none => paramsNames ps
  | function ps (some r) => paramsNames ps ++ r.names

/-- The names in a list of types. -/
def listNames : List TypeExpr → List String
  | [] => []
  | a :: as => a.names ++ listNames as

/-- The names of parameters and in their types. -/
def paramsNames : List Param → List String
  | [] => []
  | ⟨n, a⟩ :: ps => n :: (a.names ++ paramsNames ps)

end

/-- The names in a list of types are those in any of them. -/
theorem mem_listNames {n : String} {as : List TypeExpr} :
    n ∈ listNames as ↔ ∃ a ∈ as, n ∈ a.names := by
  induction as with
  | nil => simp [listNames]
  | cons a as ih => simp [listNames, ih]

/-- The names in a list of parameters are theirs and those in their types. -/
theorem mem_paramsNames {n : String} {ps : List Param} :
    n ∈ paramsNames ps ↔ ∃ p ∈ ps, n = p.name ∨ n ∈ p.type.names := by
  induction ps with
  | nil => simp [paramsNames]
  | cons p ps ih =>
    simp only [paramsNames, List.mem_cons, List.mem_append, ih, exists_eq_or_imp]
    rw [or_assoc]

end TypeExpr

namespace Declaration

/-- The names in a declaration: its own, those of its enumerators or members, and those in its
types. -/
def names : Declaration → List String
  | enum n u ns => n :: (u.names ++ ns)
  | record _ n parent members =>
    n :: (parent.toList.flatMap TypeExpr.names ++ members.flatMap fun m => m.name :: m.type.names)

end Declaration

/-! ## Pieces -/

/-- The characters of a list of pieces. -/
def charsOf (pieces : List String) : List Char := pieces.flatMap String.toList

/-- No word goes on with a character that is not of words. -/
theorem endsWord_cons {c : Char} (h : isWordChar c = false) (cs : List Char) : EndsWord (c :: cs) := by
  intro e he
  obtain rfl := Option.some.inj he
  exact h

namespace Reads

variable {d : Dialect} {after : List String} {ss : List Symbol}

/-- The piece that a comma is printed as adds a comma. -/
theorem comma (h : Reads d (charsOf after) ss) :
    Reads d (charsOf (", " :: after)) (.mark .comma :: ss) :=
  mark rfl (blank rfl h)

/-- The pieces that a name is printed as in front of its type add the name and a colon. -/
theorem label {n : String} (hn : isWord n = true) (h : Reads d (charsOf after) ss) :
    Reads d (charsOf (n :: ": " :: after)) (.word n :: .mark .colon :: ss) :=
  word hn (endsWord_cons rfl _) (mark rfl (blank rfl h))

end Reads

/-! ## Types -/

/-- Whether the pieces of a type, in front of any that its last name does not run into, add its
symbols to what those read as. -/
def TypeExpr.ReadsBack (d : Dialect) (a : TypeExpr) : Prop :=
  ∀ after ss, Reads d (charsOf after) ss → EndsWord (charsOf after) →
    Reads d (charsOf (a.pieces after)) (a.symbols ++ ss)

namespace TypeExpr

variable {d : Dialect}

/-- The pieces of a list of types add their symbols. -/
theorem reads_listPieces {as : List TypeExpr} (has : ∀ a ∈ as, a.ReadsBack d) {after : List String}
    {ss : List Symbol} (h : Reads d (charsOf after) ss) (hends : EndsWord (charsOf after)) :
    Reads d (charsOf (listPieces as after)) (listSymbols as ++ ss) := by
  induction as with
  | nil => exact h
  | cons a as ih =>
    have ha := has a List.mem_cons_self
    have hrest := ih fun b hb => has b (List.mem_cons_of_mem a hb)
    cases as with
    | nil => exact ha after ss h hends
    | cons b as =>
      rw [listPieces, listSymbols, List.append_assoc]
      exact ha _ _ hrest.comma (endsWord_cons rfl _)

/-- The pieces of a list of parameters add their symbols. -/
theorem reads_paramsPieces {ps : List Param}
    (hps : ∀ p ∈ ps, isWord p.name = true ∧ p.type.ReadsBack d) {after : List String}
    {ss : List Symbol} (h : Reads d (charsOf after) ss) (hends : EndsWord (charsOf after)) :
    Reads d (charsOf (paramsPieces ps after)) (paramsSymbols ps ++ ss) := by
  induction ps with
  | nil => exact h
  | cons p ps ih =>
    obtain ⟨hn, ha⟩ := hps p List.mem_cons_self
    have hrest := ih fun q hq => hps q (List.mem_cons_of_mem p hq)
    cases ps with
    | nil => exact .label hn (ha after ss h hends)
    | cons q ps =>
      rw [paramsPieces, paramsSymbols, List.cons_append, List.cons_append, List.append_assoc]
      exact .label hn (ha _ _ hrest.comma (endsWord_cons rfl _))

/-- The pieces of a type whose names are words add its symbols. -/
theorem reads_pieces {a : TypeExpr} (hnames : ∀ n ∈ a.names, isWord n = true) : a.ReadsBack d := by
  induction a with
  | named n =>
    intro after ss h hends
    exact .word (hnames n (by simp [names])) hends h
  | generic n as ih =>
    -- From the back to the front: the parenthesis, the arguments, the other parenthesis, the name.
    intro after ss h _
    have has : ∀ a ∈ as, a.ReadsBack d := fun a ha =>
      ih a ha fun m hm => hnames m (List.mem_cons_of_mem n (mem_listNames.mpr ⟨a, ha, hm⟩))
    have hclose : Reads d (charsOf (")" :: after)) (.mark .rightParen :: ss) := .mark rfl h
    have hargs := reads_listPieces has hclose (endsWord_cons rfl _)
    have hopen : Reads d (charsOf ("(" :: listPieces as (")" :: after)))
      (.mark .leftParen :: (listSymbols as ++ .mark .rightParen :: ss)) := .mark rfl hargs
    rw [pieces, symbols, List.cons_append, List.cons_append, List.append_assoc]
    exact .word (hnames n (by simp [names])) (endsWord_cons rfl _) hopen
  | function ps r ihps ihr =>
    intro after ss h hends
    have hsub : ∀ m ∈ paramsNames ps, isWord m = true := by
      intro m hm
      apply hnames
      cases r with
      | none => exact hm
      | some r => exact List.mem_append_left _ hm
    have hps : ∀ p ∈ ps, isWord p.name = true ∧ p.type.ReadsBack d := fun p hp =>
      ⟨hsub p.name (mem_paramsNames.mpr ⟨p, hp, .inl rfl⟩),
        ihps p hp fun m hm => hsub m (mem_paramsNames.mpr ⟨p, hp, .inr hm⟩)⟩
    cases r with
    | none =>
      have hclose : Reads d (charsOf (")" :: after)) (.mark .rightParen :: ss) := .mark rfl h
      have hparams := reads_paramsPieces hps hclose (endsWord_cons rfl _)
      rw [pieces, symbols, List.cons_append, List.append_assoc]
      exact .mark rfl hparams
    | some r =>
      have hr := ihr r rfl (fun m hm => hnames m (List.mem_append_right _ hm)) after ss h hends
      have harrow : Reads d (charsOf (" -> " :: r.pieces after))
        (.mark .arrow :: (r.symbols ++ ss)) := .blank rfl (.arrow (.blank rfl hr))
      have hclose : Reads d (charsOf (")" :: " -> " :: r.pieces after))
        (.mark .rightParen :: .mark .arrow :: (r.symbols ++ ss)) := .mark rfl harrow
      have hparams := reads_paramsPieces hps hclose (endsWord_cons rfl _)
      rw [pieces, symbols, List.cons_append, List.append_assoc]
      exact .mark rfl hparams

end TypeExpr

/-! ## Declarations and programs -/

namespace Declaration

variable {d : Dialect}

/-- An indentation does not change what a text reads as. -/
theorem reads_indent {after : List String} {ss : List Symbol} (h : Reads d (charsOf after) ss) :
    Reads d (charsOf (indent :: after)) ss :=
  .blank rfl (.blank rfl (.blank rfl (.blank rfl h)))

/-- The pieces of enumerators add their symbols. -/
theorem reads_enumeratorPieces {ns : List String} (hns : ∀ n ∈ ns, isWord n = true)
    {after : List String} {ss : List Symbol} (h : Reads d (charsOf after) ss) :
    Reads d (charsOf (enumeratorPieces ns after)) (enumeratorSymbols ns ++ ss) := by
  induction ns with
  | nil => exact h
  | cons n ns ih =>
    have hn := hns n List.mem_cons_self
    have hrest := ih fun m hm => hns m (List.mem_cons_of_mem n hm)
    cases ns with
    | nil => exact reads_indent (.word hn (endsWord_cons rfl _) (.blank rfl h))
    | cons m ns =>
      have hcomma : Reads d (charsOf ("," :: "\n" :: enumeratorPieces (m :: ns) after))
        (.mark .comma :: (enumeratorSymbols (m :: ns) ++ ss)) := .mark rfl (.blank rfl hrest)
      exact reads_indent (.word hn (endsWord_cons rfl _) hcomma)

/-- The pieces of a member add its symbols. -/
theorem reads_member {m : Member} (hn : isWord m.name = true) (hnames : ∀ n ∈ m.type.names, isWord n = true)
    {after : List String} {ss : List Symbol} (h : Reads d (charsOf after) ss) :
    Reads d (charsOf (indent :: m.name :: ": " :: m.type.pieces (";\n" :: after))) (memberSymbols m ++ ss) := by
  have hsemicolon : Reads d (charsOf (";\n" :: after)) (.mark .semicolon :: ss) := .mark rfl (.blank rfl h)
  have htype := TypeExpr.reads_pieces hnames _ _ hsemicolon (endsWord_cons rfl _)
  have hsymbols : memberSymbols m ++ ss =
      .word m.name :: .mark .colon :: (m.type.symbols ++ .mark .semicolon :: ss) := by simp [memberSymbols]
  rw [hsymbols]
  exact reads_indent (.label hn htype)

/-- The pieces of members add their symbols. -/
theorem reads_memberPieces {ms : List Member}
    (hms : ∀ m ∈ ms, isWord m.name = true ∧ ∀ n ∈ m.type.names, isWord n = true)
    {after : List String} {ss : List Symbol} (h : Reads d (charsOf after) ss) :
    Reads d (charsOf (memberPieces ms after)) (ms.flatMap memberSymbols ++ ss) := by
  induction ms with
  | nil => exact h
  | cons m ms ih =>
    obtain ⟨hn, hnames⟩ := hms m List.mem_cons_self
    have hrest := ih fun k hk => hms k (List.mem_cons_of_mem m hk)
    rw [List.flatMap_cons, List.append_assoc]
    exact reads_member hn hnames hrest

/-- The pieces of a parent clause add its symbols. -/
theorem reads_parentPieces {parent : Option TypeExpr}
    (hparent : ∀ a ∈ parent, ∀ n ∈ a.names, isWord n = true) {after : List String}
    {ss : List Symbol} (h : Reads d (charsOf after) ss) (hends : EndsWord (charsOf after)) :
    Reads d (charsOf (parentPieces parent after)) (parentSymbols parent ++ ss) := by
  cases parent with
  | none => exact h
  | some a =>
    have htype := TypeExpr.reads_pieces (hparent a rfl) _ _ h hends
    exact .blank rfl (.mark rfl (.blank rfl htype))

/-- What opens the lines of a declaration adds an opening brace. -/
theorem reads_open {after : List String} {ss : List Symbol} (h : Reads d (charsOf after) ss) :
    Reads d (charsOf (" \x7b\n" :: after)) (.mark .leftBrace :: ss) :=
  .blank rfl (.mark rfl (.blank rfl h))

/-- The pieces of an enumeration add its symbols. -/
theorem reads_enum {n : String} {u : TypeExpr} {ns : List String}
    (hnames : ∀ m ∈ (enum n u ns).names, isWord m = true) {after : List String} {ss : List Symbol}
    (h : Reads d (charsOf after) ss) :
    Reads d (charsOf ((enum n u ns).pieces after)) ((enum n u ns).symbols ++ ss) := by
  obtain ⟨hn, hnames⟩ := List.forall_mem_cons.mp hnames
  obtain ⟨hu, hns⟩ := List.forall_mem_append.mp hnames
  -- As with types, the pieces are put in front of what follows from the last to the first.
  have hclose : Reads d (charsOf ("\x7d" :: after)) (.mark .rightBrace :: ss) := .mark rfl h
  have hopen := reads_open (reads_enumeratorPieces hns hclose)
  have htype := TypeExpr.reads_pieces hu _ _ hopen (endsWord_cons rfl _)
  have hcolon : Reads d (charsOf (" : " :: u.pieces (" \x7b\n" ::
      enumeratorPieces ns ("\x7d" :: after)))) _ := .blank rfl (.mark rfl (.blank rfl htype))
  have hname := Reads.word hn (endsWord_cons rfl _) hcolon
  have hkeyword := Reads.word (n := "enum") rfl (endsWord_cons rfl _) (.blank (c := ' ') rfl hname)
  have hsymbols : (enum n u ns).symbols ++ ss =
      .word "enum" :: .word n :: .mark .colon :: (u.symbols ++
        .mark .leftBrace :: (enumeratorSymbols ns ++ .mark .rightBrace :: ss)) := by
    simp [symbols]
  rw [hsymbols]
  exact hkeyword

/-- The pieces of a record up to its opening brace add their symbols. -/
theorem reads_recordHead (head : Grammar.RecordHead) (hn : isWord head.name = true)
    (hparent : ∀ a ∈ head.parent, ∀ m ∈ a.names, isWord m = true) {after : List String}
    {ss : List Symbol} (h : Reads d (charsOf after) ss) :
    Reads d (charsOf (head.form.keyword :: " " :: head.name :: parentPieces head.parent (" \x7b\n" :: after)))
      (head.symbols ++ ss) := by
  obtain ⟨form, n, parent⟩ := head
  have hclause := reads_parentPieces hparent (reads_open h) (endsWord_cons rfl _)
  -- Behind the name stands a blank, of the parent clause or of the opening brace.
  have hends : EndsWord (charsOf (parentPieces parent (" \x7b\n" :: after))) := by
    cases parent <;> exact endsWord_cons rfl _
  have hname := Reads.word hn hends hclause
  have hform : isWord form.keyword = true := by cases form <;> rfl
  have hkeyword := Reads.word hform (endsWord_cons rfl _) (.blank (c := ' ') rfl hname)
  have hsymbols : Grammar.RecordHead.symbols ⟨form, n, parent⟩ ++ ss =
      .word form.keyword :: .word n :: (parentSymbols parent ++ .mark .leftBrace :: ss) := by
    simp [Grammar.RecordHead.symbols]
  rw [hsymbols]
  exact hkeyword

/-- The pieces of a record add its symbols. -/
theorem reads_record {form : RecordForm} {n : String} {parent : Option TypeExpr}
    {members : List Member}
    (hnames : ∀ m ∈ (record form n parent members).names, isWord m = true) {after : List String}
    {ss : List Symbol} (h : Reads d (charsOf after) ss) :
    Reads d (charsOf ((record form n parent members).pieces after))
      ((record form n parent members).symbols ++ ss) := by
  obtain ⟨hn, hnames⟩ := List.forall_mem_cons.mp hnames
  obtain ⟨hparent, hmembers⟩ := List.forall_mem_append.mp hnames
  have hps : ∀ a ∈ parent, ∀ m ∈ a.names, isWord m = true := fun a ha m hm =>
    hparent m (List.mem_flatMap.mpr ⟨a, by simpa using ha, hm⟩)
  have hms : ∀ m ∈ members, isWord m.name = true ∧ ∀ k ∈ m.type.names, isWord k = true :=
    fun m hm => List.forall_mem_cons.mp fun k hk => hmembers k (List.mem_flatMap.mpr ⟨m, hm, hk⟩)
  have hclose : Reads d (charsOf ("\x7d" :: after)) (.mark .rightBrace :: ss) := .mark rfl h
  have hbody := reads_memberPieces hms hclose
  have hsymbols : (record form n parent members).symbols ++ ss =
      Grammar.RecordHead.symbols ⟨form, n, parent⟩ ++
        (members.flatMap memberSymbols ++ .mark .rightBrace :: ss) := by
    simp [symbols, Grammar.RecordHead.symbols]
  rw [hsymbols]
  exact reads_recordHead ⟨form, n, parent⟩ hn hps hbody

/-- The pieces of a declaration whose names are words add its symbols. -/
theorem reads_pieces {decl : Declaration} (hnames : ∀ n ∈ decl.names, isWord n = true)
    {after : List String} {ss : List Symbol} (h : Reads d (charsOf after) ss) :
    Reads d (charsOf (decl.pieces after)) (decl.symbols ++ ss) := by
  cases decl with
  | enum n u ns => exact reads_enum hnames h
  | record form n parent members => exact reads_record hnames h

end Declaration

/-- The pieces of declarations whose names are words read as their symbols. -/
theorem Program.reads_listPieces {d : Dialect} {ds : List Declaration}
    (hnames : ∀ e ∈ ds, ∀ n ∈ e.names, isWord n = true) :
    Reads d (charsOf (listPieces ds)) (ds.flatMap Declaration.symbols) := by
  induction ds with
  | nil => exact .nil d
  | cons e ds ih =>
    have he := hnames e List.mem_cons_self
    have hrest := ih fun f hf => hnames f (List.mem_cons_of_mem e hf)
    cases ds with
    | nil => exact Declaration.reads_pieces he (.nil d)
    | cons f ds =>
      have hbreak : Reads d (charsOf ("\n" :: listPieces (f :: ds)))
        ((f :: ds).flatMap Declaration.symbols) := .blank rfl hrest
      exact Declaration.reads_pieces he hbreak

/-- The canonical text of a program whose names are words reads as the symbols that spell it. -/
theorem Program.reads_text {d : Dialect} {p : Program}
    (hnames : ∀ e ∈ p.toList, ∀ n ∈ e.names, isWord n = true) :
    Reads d p.text.toList p.symbols := by
  have hchars : p.text.toList = charsOf (listPieces p.toList) := String.toList_join
  rw [hchars]
  exact reads_listPieces hnames

end Idl
