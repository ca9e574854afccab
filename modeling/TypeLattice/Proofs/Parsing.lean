import TypeLattice.Proofs.Grammar
import TypeLattice.Proofs.Reading
import TypeLattice.Proofs.Words

/-!
# Reading follows the grammar

What the grammar derives is read, and what is read the grammar derives. Readers of the parts of
types are given a reader of types, as the rules are given a rule for types. So a text is read
exactly if it splits into words that derive the expression.
-/
namespace TypeLattice

open Reading

variable {α β : Type} {type : Reading TypeExpr} {ls ms rest : List Lexeme} {l : Lexeme} {k : String}
  {e : TypeExpr} {d : DefaultExpr TypeExpr} {v : Value} {n : ℕ} {s close : Symbol}

/-- The reader of types reads these lexemes as this type, unless a bracket follows, which would
make parameters of what is after it. -/
structure ReadsType (type : Reading TypeExpr) (ls : List Lexeme) (e : TypeExpr) : Prop where
  begins : ∃ s ms, ls = .name s :: ms
  reads : ∀ l rest, l ≠ .symbol .openBracket → Reads type (ls ++ l :: rest) e (l :: rest)

/-- What follows an item of a list is no bracket. -/
theorem symbol_ne_openBracket (hs : s = .comma ∨ s = close) (hc : close ≠ .openBracket) :
    Lexeme.symbol s ≠ .symbol .openBracket := by
  rintro h
  obtain rfl := Lexeme.symbol.inj h
  rcases hs with h | h
  · cases h
  · exact hc h.symm

theorem ReadsType.item (h : ReadsType type ls e) (hc : close ≠ .openBracket) :
    ReadsItem close type ls e := by
  obtain ⟨s, ms, hls⟩ := h.begins
  exact ⟨⟨_, ms, hls, by simp⟩, fun s rest hs => h.reads _ rest (symbol_ne_openBracket hs hc)⟩

theorem IsKey.reads (h : IsKey k l) (ls : List Lexeme) :
    Reads key (l :: .symbol .arrow :: ls) k ls := by
  cases h with
  | name => exact Reads.key_name k ls
  | string => exact Reads.key_string k ls

theorem IsKey.begins (h : IsKey k l) (ls : List Lexeme) (close : Symbol) :
    ∃ m ms, entry l ls = m :: ms ∧ m ≠ .symbol close :=
  ⟨_, _, rfl, by cases h <;> simp⟩

theorem inBrackets_append (ls rest : List Lexeme) :
    inBrackets ls ++ rest = .symbol .openBracket :: (ls ++ .symbol .closeBracket :: rest) := by
  simp [inBrackets]

theorem inBraces_append (ls rest : List Lexeme) :
    inBraces ls ++ rest = .symbol .openBrace :: (ls ++ .symbol .closeBrace :: rest) := by
  simp [inBraces]

theorem NumberValue.reads {cs : List Char} (h : NumberValue cs v) (ls : List Lexeme) :
    Reads (number cs) ls v ls := by
  cases h with
  | integer read =>
    rw [number, read]
    exact .pure _ _
  | float other read finite =>
    rw [number, other, read]
    simp only [finite, if_true]
    exact .pure _ _

theorem LiteralRule.ne_close (h : LiteralRule ls v) :
    ∃ l ms, ls = l :: ms ∧ l ≠ .symbol .closeBracket := by
  cases h <;> exact ⟨_, _, rfl, by simp⟩

theorem LiteralRule.reads (type : Reading TypeExpr) (h : LiteralRule ls v) (hn : ls.length ≤ n)
    (rest : List Lexeme) : Reads (valueWithin type n) (ls ++ rest) (.literal v) rest := by
  induction n generalizing ls v rest with
  | zero =>
    obtain ⟨l, ms, rfl, _⟩ := h.ne_close
    simp at hn
  | succ n ih =>
    cases h with
    | undef => exact Reads.bind_peek (Reads.bind_advance (.pure _ _))
    | true => exact Reads.bind_peek (Reads.bind_advance (.pure _ _))
    | false => exact Reads.bind_peek (Reads.bind_advance (.pure _ _))
    | number value =>
      exact Reads.bind_peek ((value.reads _).bind (Reads.bind_advance (.pure _ _)))
    | string => exact Reads.bind_peek (Reads.bind_advance (.pure _ _))
    | @array ls vs elements =>
      rw [inBrackets, List.length_cons, List.length_append] at hn
      have hitem : ImpliesUpTo n LiteralRule
          (ReadsItem .closeBracket (do literalOnly (← valueWithin type n))) := fun ms x hms hx =>
        ⟨hx.ne_close, fun s rest _ => (ih hx hms (.symbol s :: rest)).bind (.pure _ _)⟩
      have hitems := hitem.commaList _ _ (by omega) elements
      rw [inBrackets_append]
      exact Reads.bind_peek (Reads.bind_advance
        ((reads_items "in array" (by decide) hitems rest).bind (.pure _ _)))

theorem ValueRule.reads (h : ValueRule (ReadsType type) ls d) (hl : l ≠ .symbol .openBracket)
    (rest : List Lexeme) : Reads (value type) (ls ++ l :: rest) d (l :: rest) := by
  refine Reads.get fun ts hts => ?_
  rw [List.length_append, List.length_cons] at hts
  cases h with
  | literal literal => exact literal.reads type (by omega) _
  | type htype word =>
    obtain ⟨s, ms, rfl⟩ := htype.begins
    have hword : ∀ k ∈ keywords, s ≠ k := by
      rintro k hk rfl
      exact word s hk rfl
    obtain ⟨n, hn⟩ : ∃ n, ts.length = n + 1 := ⟨ts.length - 1, by omega⟩
    rw [hn]
    refine Reads.bind_peek ?_
    simp only [hword "undef" (by decide), hword "true" (by decide), hword "false" (by decide),
      if_false]
    exact (htype.reads l rest hl).bind (.pure _ _)

theorem lastEntries_eq (es : List AttributeEntry) :
    lastEntries es =
      ((es.filterMap AttributeEntry.type?).getLast?,
        (es.filterMap AttributeEntry.value?).getLast?) := by
  induction es with
  | nil => rfl
  | cons e es ih =>
    cases e <;> simp [lastEntries, ih, AttributeEntry.type?, AttributeEntry.value?,
      List.getLast?_cons, Option.or_some]

theorem AttributeEntryRule.reads {x : AttributeEntry}
    (h : AttributeEntryRule (ReadsType type) ls x) :
    ReadsItem .closeBrace (attributeEntry type) ls x := by
  cases h with
  | type key htype =>
    refine ⟨key.begins _ _, fun s rest hs => Reads.get fun _ _ => (key.reads _).bind ?_⟩
    exact (htype.reads _ rest (symbol_ne_openBracket hs (by decide))).bind (.pure _ _)
  | value key hvalue =>
    refine ⟨key.begins _ _, fun s rest hs => Reads.get fun _ _ => (key.reads _).bind ?_⟩
    exact (hvalue.reads (symbol_ne_openBracket hs (by decide)) rest).bind (.pure _ _)

theorem AttributeRule.reads {a : AttributeDecl TypeExpr} (h : AttributeRule (ReadsType type) ls a)
    (hl : l ≠ .symbol .openBracket) (rest : List Lexeme) :
    Reads (attributeDecl type) (ls ++ l :: rest) a (l :: rest) := by
  cases h with
  | type htype =>
    have hreads := htype.reads l rest hl
    obtain ⟨s, ms, rfl⟩ := htype.begins
    refine Reads.bind_peek ?_
    rw [if_neg (by simp)]
    exact hreads.bind (.pure _ _)
  | @entries ls es e entries typed =>
    have hitems : CommaList (ReadsItem .closeBrace (attributeEntry type)) ls es :=
      entries.imp fun _ _ => AttributeEntryRule.reads
    rw [inBraces_append]
    refine Reads.bind_peek ?_
    rw [if_pos rfl]
    have hread := reads_items "in attribute hash" (by decide) hitems (l :: rest)
    refine Reads.bind_advance (hread.bind ?_)
    rw [lastEntries_eq, typed]
    exact .pure _ _

theorem NamedAttributeRule.reads {a : String × AttributeDecl TypeExpr}
    (h : NamedAttributeRule (ReadsType type) ls a) :
    ReadsItem .closeBrace (attributeOf type) ls a := by
  cases h with
  | mk key rule =>
    refine ⟨key.begins _ _, fun s rest hs => (key.reads _).bind ?_⟩
    exact (rule.reads (symbol_ne_openBracket hs (by decide)) rest).bind (.pure _ _)

theorem foldl_withAttribute (as : List (String × AttributeDecl TypeExpr)) (d : ObjectDecl) :
    as.foldl (fun d a => d.withAttribute a.1 a.2) d =
      { d with attributes := as.foldl (fun bs a => put a.1 a.2 bs) d.attributes } := by
  induction as generalizing d with
  | nil => rfl
  | cons a as ih => rw [List.foldl_cons, ih, Declaration.withAttribute, List.foldl_cons]

theorem foldl_withEntry (es : List ObjectEntry) : es.foldl withEntry {} = declared es := by
  have key : ∀ d : ObjectDecl, es.foldl withEntry d =
      { d with
        name := (es.filterMap ObjectEntry.name?).getLast?.or d.name
        parent := (es.filterMap ObjectEntry.parent?).getLast?.or d.parent
        attributes := (es.flatMap ObjectEntry.attributesOf).foldl (fun bs a => put a.1 a.2 bs)
          d.attributes } := by
    induction es with
    | nil => simp
    | cons x es ih =>
      intro d
      rw [List.foldl_cons, ih]
      cases x <;> simp [withEntry, foldl_withAttribute, ObjectEntry.name?, ObjectEntry.parent?,
        ObjectEntry.attributesOf, List.getLast?_cons]
  rw [key, declared, Table.ofList, Table.entries_foldl_insert]
  simp

theorem ObjectEntryRule.reads {x : ObjectEntry} (h : ObjectEntryRule (ReadsType type) ls x) :
    ReadsItem .closeBrace (objectEntry type) ls x := by
  cases h with
  | name key s =>
    refine ⟨key.begins _ _, fun s rest hs => Reads.get fun _ _ => (key.reads _).bind ?_⟩
    exact Reads.bind_peek (Reads.bind_advance (.pure _ _))
  | parent key htype =>
    refine ⟨key.begins _ _, fun s rest hs => Reads.get fun _ _ => (key.reads _).bind ?_⟩
    exact (htype.reads _ rest (symbol_ne_openBracket hs (by decide))).bind (.pure _ _)
  | @attributes l ls as key attributes =>
    have hitems : CommaList (ReadsItem .closeBrace (attributeOf type)) ls as :=
      attributes.imp fun _ _ => NamedAttributeRule.reads
    refine ⟨key.begins _ _, fun s rest hs => Reads.get fun _ _ => ?_⟩
    rw [entry, List.cons_append, List.cons_append, inBraces_append]
    exact (key.reads _).bind ((Reads.expect _ _ _).bind
      ((reads_items "in attributes hash" (by decide) hitems _).bind (.pure _ _)))

theorem reads_objectDecl {es : List ObjectEntry}
    (h : CommaList (ObjectEntryRule (ReadsType type)) ls es) (rest : List Lexeme) :
    Reads (objectDecl type) (inBraces ls ++ rest) (declared es) rest := by
  have hitems : CommaList (ReadsItem .closeBrace (objectEntry type)) ls es :=
    h.imp fun _ _ => ObjectEntryRule.reads
  rw [inBraces_append, ← foldl_withEntry]
  exact (Reads.expect _ _ _).bind
    ((reads_items "in object type hash" (by decide) hitems rest).bind (.pure _ _))

theorem reads_parameters {es : List TypeExpr} (h : CommaList (ReadsType (typeWithin n)) ls es)
    (name : String) (l : Lexeme) (rest : List Lexeme) :
    Reads (typeWithin (n + 1)) (.name name :: inBrackets ls ++ l :: rest) (.named name es)
      (l :: rest) := by
  have hitems : CommaList (ReadsItem .closeBracket (typeWithin n)) ls es :=
    h.imp fun _ _ htype => htype.item (by decide)
  -- parameters do not begin with a brace, so they are not taken for the entries of an object type
  obtain ⟨m, ms, hm, hbrace⟩ : ∃ m ms, ls ++ .symbol .closeBracket :: l :: rest = m :: ms ∧
      m ≠ .symbol .openBrace := by
    cases h with
    | nil => exact ⟨_, _, rfl, by simp⟩
    | last htype =>
      obtain ⟨s, ms, rfl⟩ := htype.begins
      exact ⟨_, _, rfl, by simp⟩
    | cons htype =>
      obtain ⟨s, ms, rfl⟩ := htype.begins
      exact ⟨_, _, rfl, by simp⟩
  have hread := reads_items "in type parameters" (by decide) hitems (l :: rest)
  rw [List.cons_append, inBrackets_append]
  rw [hm] at hread ⊢
  refine Reads.bind_peek (Reads.bind_advance (Reads.bind_peek ?_))
  rw [if_pos rfl]
  refine Reads.bind_advance (Reads.bind_peek ?_)
  rw [if_neg (fun h => hbrace h.2)]
  exact hread.bind (.pure _ _)

theorem reads_object {es : List ObjectEntry}
    (h : CommaList (ObjectEntryRule (ReadsType (typeWithin n))) ls es) (rest : List Lexeme) :
    Reads (typeWithin (n + 1)) (.name "Object" :: inBrackets (inBraces ls) ++ rest)
      (.object (declared es)) rest := by
  have hread := reads_objectDecl h (.symbol .closeBracket :: rest)
  rw [List.cons_append, inBrackets_append]
  refine Reads.bind_peek (Reads.bind_advance (Reads.bind_peek ?_))
  rw [if_pos rfl]
  rw [inBraces_append] at hread ⊢
  refine Reads.bind_advance (Reads.bind_peek ?_)
  rw [if_pos ⟨rfl, rfl⟩]
  exact hread.bind ((Reads.expect _ _ _).bind (.pure _ _))

/-- With enough depth the reader reads what is derived. -/
theorem Derives.reads (h : Derives ls e) (hn : ls.length ≤ n) : ReadsType (typeWithin n) ls e := by
  induction n generalizing ls e with
  | zero => cases h <;> simp at hn
  | succ n ih =>
    have himp : ImpliesUpTo n Derives (ReadsType (typeWithin n)) := fun _ _ hms h => ih h hms
    cases h with
    | name s =>
      refine ⟨⟨s, [], rfl⟩, fun l rest hl => ?_⟩
      refine Reads.bind_peek (Reads.bind_advance (Reads.bind_peek ?_))
      rw [if_neg hl]
      exact .pure _ _
    | parameterized s parameters =>
      simp only [inBrackets, List.length_cons, List.length_append] at hn
      have hparameters := himp.commaList _ _ (by omega) parameters
      exact ⟨⟨s, _, rfl⟩, fun l rest _ => reads_parameters hparameters s l rest⟩
    | object entries =>
      simp only [inBrackets, inBraces, List.length_cons, List.length_append] at hn
      have hentries := himp.objectEntryRule.commaList _ _ (by omega) entries
      exact ⟨⟨_, _, rfl⟩, fun l rest _ => reads_object hentries (l :: rest)⟩

/-- A lexeme that neither is the end of a text nor stands for a fault. -/
def Lexeme.Inner (l : Lexeme) : Prop := l ≠ .stop ∧ l.isFault = false

namespace Reading

variable {m : Reading α} {f : α → Reading β} {P : List Lexeme → β → Prop}
  {R : List Lexeme → α → Prop} {D : List Lexeme → TypeExpr → Prop} {ts us vs : List Token}
  {context : String}

def first : List Token → Lexeme
  | [] => .stop
  | t :: _ => t.lexeme

/-- These lexemes are taken from the tokens `ts`, and `us` are left. -/
structure Consumes (ts : List Token) (ls : List Lexeme) (us : List Token) : Prop where
  append : ts.map (·.lexeme) = ls ++ us.map (·.lexeme)
  inner : ∀ l ∈ ls, l.Inner

namespace Consumes

protected theorem refl (ts : List Token) : Consumes ts [] ts := ⟨rfl, by simp⟩

protected theorem trans (h : Consumes ts ls us) (h' : Consumes us ms vs) :
    Consumes ts (ls ++ ms) vs :=
  ⟨by rw [h.append, h'.append, List.append_assoc], List.forall_mem_append.2 ⟨h.inner, h'.inner⟩⟩

theorem tail (h : first ts = l) (hl : l.Inner) : Consumes ts [l] ts.tail := by
  cases ts with
  | nil => exact absurd h.symm hl.1
  | cons t ts => exact ⟨by rw [← h]; rfl, by simpa using hl⟩

theorem head_eq (h : Consumes ts ls us) (hl : ls.head? = some l) : l = first ts := by
  obtain ⟨ms, rfl⟩ : ∃ ms, ls = l :: ms := List.head?_eq_some_iff.1 hl
  cases ts with
  | nil => cases h.append
  | cons t ts => exact (List.cons.inj h.append).1.symm

end Consumes

/-- In front of the lexeme `l`, `P` holds of what the reader takes and what it returns. -/
def TakesAt (l : Lexeme) (m : Reading α) (P : List Lexeme → α → Prop) : Prop :=
  ∀ ts a us, first ts = l → m.run ts = .ok (a, us) → ∃ ls, Consumes ts ls us ∧ P ls a

def Takes (m : Reading α) (P : List Lexeme → α → Prop) : Prop := ∀ l, TakesAt l m P

theorem run_bind_eq_ok {b : β} (h : (m >>= f).run ts = .ok (b, vs)) :
    ∃ a us, m.run ts = .ok (a, us) ∧ (f a).run us = .ok (b, vs) := by
  rw [StateT.run_bind] at h
  cases hm : m.run ts with
  | error => rw [hm] at h; cases h
  | ok p => rw [hm] at h; exact ⟨p.1, p.2, rfl, h⟩

theorem run_peek (ts : List Token) : peek.run ts = .ok (first ts, ts) := by
  cases ts <;> rfl

theorem run_fail_ne (e : ParseFault) (ts : List Token) (p : α × List Token) :
    (fail e : Reading α).run ts ≠ .ok p := by
  cases ts <;> exact nofun

theorem eq_tail_of_advance {u : Unit} (h : advance.run ts = .ok (u, us)) : us = ts.tail := by
  change (do let us ← (liftM (checked ts.tail) : Reading _); set us).run ts = _ at h
  unfold checked at h
  split at h
  · cases h
  · cases h
    rfl

namespace TakesAt

protected theorem fail (e : ParseFault) : TakesAt l (fail e : Reading α) R :=
  fun ts _ _ _ h => absurd h (run_fail_ne e ts _)

protected theorem pure {a : α} (h : R [] a) : TakesAt l (pure a) R := by
  rintro ts _ _ _ ⟨⟩
  exact ⟨[], .refl ts, h⟩

protected theorem bind (h : TakesAt l m R)
    (hf : ∀ a ls, R ls a → Takes (f a) fun ms => P (ls ++ ms)) : TakesAt l (m >>= f) P := by
  intro ts b vs hl hrun
  obtain ⟨a, us, ha, hb⟩ := run_bind_eq_ok hrun
  obtain ⟨ls, hls, hr⟩ := h ts a us hl ha
  obtain ⟨ms, hms, hp⟩ := hf a ls hr _ us b vs rfl hb
  exact ⟨ls ++ ms, hls.trans hms, hp⟩

theorem bind_fail (m : Reading α) (e : ParseFault) :
    TakesAt l (m >>= fun _ => (fail e : Reading β)) P := by
  intro ts b vs _ h
  obtain ⟨a, us, _, hfail⟩ := run_bind_eq_ok h
  exact absurd hfail (run_fail_ne e us _)

theorem fail_bind (e : ParseFault) (f : α → Reading β) : TakesAt l (fail e >>= f) P := by
  intro ts b vs _ h
  obtain ⟨a, us, hfail, _⟩ := run_bind_eq_ok h
  exact absurd hfail (run_fail_ne e ts _)

theorem get {f : List Token → Reading β} (h : ∀ ts, TakesAt l (f ts) P) :
    TakesAt l (get >>= f) P :=
  fun ts b us hl hrun => h ts ts b us hl hrun

theorem bind_peek {f : Lexeme → Reading β} (h : TakesAt l (f l) P) :
    TakesAt l (peek >>= f) P := by
  intro ts b vs hl hrun
  obtain ⟨m, us, hm, hb⟩ := run_bind_eq_ok hrun
  rw [run_peek, hl] at hm
  cases hm
  exact h ts b vs hl hb

protected theorem advance {P : List Lexeme → Unit → Prop} (hl : l.Inner) (h : P [l] ()) :
    TakesAt l advance P :=
  fun _ _ _ hfirst hrun => ⟨[l], eq_tail_of_advance hrun ▸ .tail hfirst hl, h⟩

theorem bind_advance {f : Unit → Reading β} (hl : l.Inner)
    (h : Takes (f ()) fun ms => P (l :: ms)) : TakesAt l (advance >>= f) P :=
  (TakesAt.advance (P := fun ls _ => ls = [l]) hl rfl).bind fun _ _ hls => hls ▸ h

/-- What is taken begins with the lexeme that stands there. -/
theorem head (h : TakesAt l m R) :
    TakesAt l m fun ls a => R ls a ∧ ∀ k, ls.head? = some k → k = l := by
  intro ts a us hl hrun
  obtain ⟨ls, hls, hr⟩ := h ts a us hl hrun
  exact ⟨ls, hls, hr, fun k hk => (hls.head_eq hk).trans hl⟩

end TakesAt

theorem inner_symbol (s : Symbol) : (Lexeme.symbol s).Inner := ⟨nofun, rfl⟩

theorem inner_name (s : String) : (Lexeme.name s).Inner := ⟨nofun, rfl⟩

theorem inner_string (s : String) : (Lexeme.string s).Inner := ⟨nofun, rfl⟩

theorem inner_number (cs : List Char) : (Lexeme.number cs).Inner := ⟨nofun, rfl⟩

theorem takes_expect (s : Symbol) (context : String) :
    Takes (expect s context) fun ls _ => ls = [.symbol s] := by
  refine fun l => .bind_peek ?_
  split
  · subst l
    exact .advance (inner_symbol s) rfl
  · exact .fail _

theorem takes_key : Takes key fun ls k => ∃ l, IsKey k l ∧ ls = [l, .symbol .arrow] := by
  refine fun l => .bind_peek ?_
  split
  · rename_i k
    refine .bind_advance (inner_name k) fun _ => (takes_expect _ _ _).bind fun _ ls hls _ => ?_
    exact .pure ⟨_, .name, by rw [hls]; rfl⟩
  · rename_i k
    refine .bind_advance (inner_string k) fun _ => (takes_expect _ _ _).bind fun _ ls hls _ => ?_
    exact .pure ⟨_, .string, by rw [hls]; rfl⟩
  · exact .fail _

theorem TakesAt.bind_separator {f : Unit → Reading β}
    (hcomma : Takes (f ()) fun ms => P (.symbol .comma :: ms))
    (hclose : TakesAt (.symbol close) (f ()) P) :
    TakesAt l (separator close context >>= f) P := by
  rw [separator, bind_assoc]
  refine .bind_peek ?_
  split_ifs with h h'
  · subst l
    exact .bind_advance (inner_symbol _) hcomma
  · subst l
    exact hclose
  · exact .fail_bind _ _

theorem takesAt_closing (context : String) (item : Reading α) (n : ℕ) :
    TakesAt (.symbol close) (itemsWithin close context item n) fun ls as =>
      ls = [.symbol close] ∧ as = [] := by
  cases n with
  | zero => exact .fail _
  | succ n =>
    refine .bind_peek ?_
    rw [if_pos rfl]
    exact .bind_advance (inner_symbol close) fun _ => .pure ⟨rfl, rfl⟩

theorem takes_itemsWithin {item : Reading α} (h : Takes item R) (close : Symbol) (context : String)
    (n : ℕ) : Takes (itemsWithin close context item n) fun ls as =>
      ∃ ms, CommaList R ms as ∧ ls = ms ++ [.symbol close] := by
  induction n with
  | zero => exact fun _ => .fail _
  | succ n ih =>
    refine fun l => .bind_peek ?_
    split
    · subst l
      exact .bind_advance (inner_symbol close) fun _ => .pure ⟨[], .nil, rfl⟩
    · refine (h l).bind fun a ls ha _ => .bind_separator (fun _ => (ih _).bind ?_) ?_
      · rintro as _ ⟨ms, hms, rfl⟩ _
        exact .pure ⟨_, .cons ha hms, by simp⟩
      · refine (takesAt_closing context item n).bind ?_
        rintro as _ ⟨rfl, rfl⟩ _
        exact .pure ⟨_, .last ha, by simp⟩

/-- What stands between the symbols of a list is a list of what the items take. -/
theorem takes_items {item : Reading α} (h : Takes item R) (close : Symbol) (context : String) :
    Takes (items close context item) fun ls as =>
      ∃ ms, CommaList R ms as ∧ ls = ms ++ [.symbol close] :=
  fun _ => .get fun ts => takes_itemsWithin h close context ts.length _

theorem TakesAt.bind_number {cs : List Char} {f : Value → Reading β}
    (h : ∀ v, NumberValue cs v → TakesAt l (f v) P) : TakesAt l (number cs >>= f) P := by
  unfold number
  split
  · exact h _ (.integer ‹_›)
  · split
    · split_ifs with hfinite
      · exact h _ (.float ‹_› ‹_› hfinite)
      · exact .fail_bind _ _
    · exact .fail_bind _ _

theorem takes_element {element : Reading (DefaultExpr TypeExpr)}
    (h : Takes element (ValueRule D)) : Takes (do literalOnly (← element)) LiteralRule := by
  refine fun l => (h l).bind ?_
  rintro _ ls (hliteral | _) _
  · exact .pure (by rwa [List.append_nil])
  · exact .fail _

theorem takes_valueWithin (h : Takes type D) (n : ℕ) :
    Takes (valueWithin type n) (ValueRule D) := by
  induction n with
  | zero => exact fun _ => .fail _
  | succ n ih =>
    refine fun l => .bind_peek ?_
    split
    · rename_i s
      split_ifs with hundef htrue hfalse
      · subst s
        exact .bind_advance (inner_name _) fun _ => .pure (.literal .undef)
      · subst s
        exact .bind_advance (inner_name _) fun _ => .pure (.literal .true)
      · subst s
        exact .bind_advance (inner_name _) fun _ => .pure (.literal .false)
      · refine (h _).head.bind ?_
        rintro e ls ⟨he, hhead⟩ _
        refine .pure (.type (by rwa [List.append_nil]) fun k hk hls => ?_)
        rw [List.append_nil] at hls
        obtain rfl := Lexeme.name.inj (hhead _ hls)
        simp [keywords, hundef, htrue, hfalse] at hk
    · rename_i s
      exact .bind_advance (inner_string s) fun _ => .pure (.literal (.string s))
    · rename_i cs
      refine .bind_number fun v hv => ?_
      exact .bind_advance (inner_number cs) fun _ => .pure (.literal (.number hv))
    · refine .bind_advance (inner_symbol _) fun _ => (takes_items (takes_element ih) _ _ _).bind ?_
      rintro vs _ ⟨ms, hms, rfl⟩ _
      exact .pure (.literal (by simpa using .array hms))
    · exact .fail _

theorem takes_value (h : Takes type D) : Takes (value type) (ValueRule D) :=
  fun _ => .get fun ts => takes_valueWithin h ts.length _

theorem takes_attributeEntry (h : Takes type D) :
    Takes (attributeEntry type) (AttributeEntryRule D) := by
  refine fun l => .get fun ts => (takes_key l).bind ?_
  rintro k _ ⟨m, hm, rfl⟩ l
  split_ifs with htype hvalue
  · subst k
    exact (h l).bind fun e ls he _ => .pure (by simpa using .type hm he)
  · subst k
    exact (takes_value h l).bind fun e ls he _ => .pure (by simpa using .value hm he)
  · exact .bind_fail _ _

theorem takes_attributeDecl (h : Takes type D) :
    Takes (attributeDecl type) (AttributeRule D) := by
  refine fun l => .bind_peek ?_
  split
  · subst l
    refine .bind_advance (inner_symbol _) fun l =>
      (takes_items (takes_attributeEntry h) _ _ l).bind ?_
    rintro es _ ⟨ms, hms, rfl⟩ _
    rw [lastEntries_eq]
    split
    · rename_i hes
      obtain ⟨htyped, rfl⟩ := Prod.mk.inj hes
      exact .pure (by simpa only [List.append_nil] using .entries hms htyped)
    · exact .fail _
  · exact (h l).bind fun e ls he _ => .pure (.type (by rwa [List.append_nil]))

theorem takes_attributeOf (h : Takes type D) :
    Takes (attributeOf type) (NamedAttributeRule D) := by
  refine fun l => (takes_key l).bind ?_
  rintro k _ ⟨m, hm, rfl⟩ l
  exact (takes_attributeDecl h l).bind fun a ls ha _ => .pure (by simpa using .mk hm ha)

theorem takes_objectEntry (h : Takes type D) :
    Takes (objectEntry type) (ObjectEntryRule D) := by
  refine fun l => .get fun ts => (takes_key l).bind ?_
  rintro k _ ⟨m, hm, rfl⟩ l
  split_ifs with hname hparent hattributes
  · subst k
    refine .bind_peek ?_
    split
    · rename_i s
      exact .bind_advance (inner_string s) fun _ => .pure (.name hm s)
    · exact .fail _
  · subst k
    exact (h l).bind fun e ls he _ => .pure (by simpa using .parent hm he)
  · subst k
    refine (takes_expect _ _ l).bind ?_
    rintro _ _ rfl l
    refine (takes_items (takes_attributeOf h) _ _ l).bind ?_
    rintro as _ ⟨ms, hms, rfl⟩ _
    exact .pure (by simpa using .attributes hm hms)
  · exact .bind_fail _ _

theorem takes_objectDecl (h : Takes type D) : Takes (objectDecl type) fun ls d =>
    ∃ ms es, CommaList (ObjectEntryRule D) ms es ∧ ls = inBraces ms ∧ d = declared es := by
  refine fun l => (takes_expect _ _ l).bind ?_
  rintro _ _ rfl l
  refine (takes_items (takes_objectEntry h) _ _ l).bind ?_
  rintro es _ ⟨ms, hms, rfl⟩ _
  exact .pure ⟨ms, es, hms, by simp [inBraces], foldl_withEntry es⟩

theorem takes_typeWithin (n : ℕ) : Takes (typeWithin n) Derives := by
  induction n with
  | zero => exact fun _ => .fail _
  | succ n ih =>
    refine fun l => .bind_peek ?_
    split
    · rename_i s
      refine .bind_advance (inner_name s) fun l => .bind_peek ?_
      split_ifs with hbracket
      · subst l
        refine .bind_advance (inner_symbol _) fun l => .bind_peek ?_
        split_ifs with hobject
        · obtain ⟨rfl, -⟩ := hobject
          refine (takes_objectDecl ih l).bind ?_
          rintro _ _ ⟨ms, es, hms, rfl, rfl⟩ l
          refine (takes_expect _ _ l).bind ?_
          rintro _ _ rfl _
          exact .pure (by simpa using .object hms)
        · refine (takes_items ih _ _ l).bind ?_
          rintro es _ ⟨ms, hms, rfl⟩ _
          exact .pure (by simpa using .parameterized s hms)
      · exact .pure (.name s)
    · exact .fail _

theorem exists_of_whole (h : whole.run ts = .ok (e, us)) :
    ∃ ls, Consumes ts ls us ∧ Derives ls e ∧ first us = .stop := by
  change (typeWithin ts.length >>= fun e => do
    if (← peek) = .stop then return e else fail .trailingInput).run ts = _ at h
  obtain ⟨e', us', htype, hend⟩ := run_bind_eq_ok h
  obtain ⟨ls, hls, hderives⟩ := takes_typeWithin ts.length _ ts e' us' rfl htype
  obtain ⟨l, vs, hl, hend⟩ := run_bind_eq_ok hend
  rw [run_peek] at hl
  cases hl
  split_ifs at hend with hstop
  · cases hend
    exact ⟨ls, hls, hderives, hstop⟩
  · exact absurd hend (run_fail_ne _ _ _)

end Reading

variable {cs : List Char}

theorem exists_not_inner (cs : List Char) : ∃ l ∈ lexemes cs, ¬ l.Inner := by
  unfold lexemes
  fun_induction Token.scan cs with
  | case1 => exact ⟨.stop, by simp, fun h => h.1 rfl⟩
  | case2 cs c rest _ p hfault => exact ⟨p.1, by simp, fun h => by cases hfault.symm.trans h.2⟩
  | case3 cs c rest _ p _ ih =>
    obtain ⟨l, hl, hnot⟩ := ih
    exact ⟨l, List.mem_cons_of_mem _ hl, hnot⟩

namespace TypeExpr

theorem parseChars_of_derives (hl : lexemes cs = ls ++ [.stop])
    (hclean : ∀ l ∈ ls, l.isFault = false) (h : Derives ls e) : parseChars cs = .ok e := by
  have hshows : Shows (Token.scan cs) (ls ++ [.stop]) :=
    ⟨hl, List.forall_mem_append.2 ⟨hclean, by simp [Lexeme.isFault]⟩⟩
  have hwhole : Reads whole (ls ++ [.stop]) e [.stop] := by
    refine Reads.get fun ts hts => ?_
    have hle : ls.length ≤ ts.length := by
      rw [hts, List.length_append]
      omega
    refine ((h.reads hle).reads .stop [] (by simp)).bind (Reads.bind_peek ?_)
    rw [if_pos rfl]
    exact .pure _ _
  obtain ⟨us, hrun, _⟩ := hwhole _ hshows
  rw [parseChars, checked_of_shows hshows]
  show (whole.run (Token.scan cs) >>= fun p => pure p.1) = _
  rw [hrun]
  rfl

theorem derives_of_parseChars (h : parseChars cs = .ok e) :
    ∃ ls, Splits cs ls ∧ Derives ls e := by
  obtain ⟨us, hrun⟩ : ∃ us, whole.run (Token.scan cs) = .ok (e, us) := by
    unfold parseChars checked at h
    split at h
    · cases h
    · cases hrun : whole.run (Token.scan cs) with
      | error => simp [hrun, bind, Except.bind] at h
      | ok p =>
        simp only [hrun, bind, Except.bind, pure, Except.pure] at h
        exact ⟨p.2, by rw [← Except.ok.inj h]⟩
  obtain ⟨ls, hls, hderives, hstop⟩ := exists_of_whole hrun
  have hlexemes : lexemes cs = ls ++ us.map (·.lexeme) := hls.append
  refine ⟨ls, ?_, hderives⟩
  cases us with
  | nil =>
    obtain ⟨l, hl, hnot⟩ := exists_not_inner cs
    rw [hlexemes, List.map_nil, List.append_nil] at hl
    exact absurd (hls.inner l hl) hnot
  | cons t us =>
    have hend : t.lexeme = .stop := hstop
    rw [List.map_cons, hend] at hlexemes
    exact (splits_of_lexemes hlexemes).1

theorem parse_eq_ok_iff {text : String} : parse text = .ok e ↔ parseChars text.toList = .ok e := by
  unfold parse
  cases parseChars text.toList <;> simp

/-- A text is read exactly if it splits into words that derive the expression. A word may be a
number whose exponent has no digits, but such a number has no value. -/
theorem parse_iff_derives :
    (∀ text e, parse text = .ok e ↔ ∃ ls, Splits text.toList ls ∧ Derives ls e) ∧
      ∀ cs, LacksDigits cs → Word (.number cs) cs ∧ ∀ v, ¬NumberValue cs v := by
  refine ⟨fun text e => parse_eq_ok_iff.trans ⟨derives_of_parseChars, ?_⟩, fun cs hcs =>
    ⟨.number hcs.isNumber, fun v hv => ?_⟩⟩
  · rintro ⟨ls, hsplits, hderives⟩
    exact parseChars_of_derives (splits_iff.1 hsplits) hsplits.not_isFault hderives
  · obtain ⟨hinteger, hfloat⟩ := hcs.unread
    cases hv with
    | integer read => cases hinteger.symm.trans read
    | float _ read => cases hfloat.symm.trans read

end TypeExpr
end TypeLattice
