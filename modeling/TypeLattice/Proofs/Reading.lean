import TypeLattice.Proofs.Grammar
import TypeLattice.Proofs.Spelling

/-!
# What readers of tokens do

A reader of tokens is described by the lexemes before it and those after it. A list of items is
read if each of its items is.
-/
namespace TypeLattice

/-- The tokens have these lexemes, and none of them is a fault. -/
def Shows (ts : List Token) (ls : List Lexeme) : Prop :=
  ts.map (·.lexeme) = ls ∧ ∀ l ∈ ls, l.isFault = false

namespace Reading

variable {α β : Type} {m : Reading α} {f : α → Reading β} {a : α} {b : β} {l : Lexeme}
  {ls ms ns rest : List Lexeme} {s close : Symbol} {context : String}

/-- In front of the lexemes `ls` the reader returns `a` and leaves `ms`. -/
def Reads (m : Reading α) (ls : List Lexeme) (a : α) (ms : List Lexeme) : Prop :=
  ∀ ts, Shows ts ls → ∃ us, m.run ts = .ok (a, us) ∧ Shows us ms

theorem checked_of_shows {ts : List Token} (h : Shows ts ls) : checked ts = .ok ts := by
  unfold checked
  split
  · have hfault := h.2 (.fault _ _) (by rw [← h.1]; exact List.mem_cons_self)
    cases hfault
  · rfl

namespace Reads

protected theorem pure (a : α) (ls : List Lexeme) : Reads (pure a) ls a ls :=
  fun ts h => ⟨ts, rfl, h⟩

protected theorem bind (h : Reads m ls a ms) (hf : Reads (f a) ms b ns) :
    Reads (m >>= f) ls b ns := by
  intro ts hts
  obtain ⟨us, hm, hus⟩ := h ts hts
  obtain ⟨vs, hb, hvs⟩ := hf us hus
  refine ⟨vs, ?_, hvs⟩
  rw [StateT.run_bind, hm]
  exact hb

theorem get {f : List Token → Reading β}
    (h : ∀ ts, ts.length = ls.length → Reads (f ts) ls b ms) : Reads (get >>= f) ls b ms := by
  intro ts hts
  exact h ts (by rw [← hts.1, List.length_map]) ts hts

theorem peek (l : Lexeme) (ls : List Lexeme) : Reads peek (l :: ls) l (l :: ls) := by
  intro ts hts
  obtain ⟨t, us, rfl, ht, hus⟩ := List.map_eq_cons_iff.1 hts.1
  exact ⟨t :: us, by rw [← ht]; rfl, hts⟩

theorem advance (l : Lexeme) (ls : List Lexeme) : Reads advance (l :: ls) () ls := by
  intro ts hts
  obtain ⟨t, us, rfl, ht, hus⟩ := List.map_eq_cons_iff.1 hts.1
  have hclean : ∀ l ∈ ls, l.isFault = false := fun l hl => hts.2 l (List.mem_cons_of_mem _ hl)
  refine ⟨us, ?_, hus, hclean⟩
  have hchecked := checked_of_shows ⟨hus, hclean⟩
  show (do let us ← (liftM (checked us) : Reading _); set us).run (t :: us) = _
  rw [hchecked]
  rfl

/-- The first lexeme decides what is done. -/
theorem bind_peek {f : Lexeme → Reading β} (h : Reads (f l) (l :: ls) b ms) :
    Reads (Reading.peek >>= f) (l :: ls) b ms :=
  (peek l ls).bind h

theorem bind_advance {f : Unit → Reading β} (h : Reads (f ()) ls b ms) :
    Reads (Reading.advance >>= f) (l :: ls) b ms :=
  (advance l ls).bind h

theorem expect (s : Symbol) (context : String) (ls : List Lexeme) :
    Reads (expect s context) (.symbol s :: ls) () ls := by
  refine bind_peek ?_
  rw [if_pos rfl]
  exact advance _ _

theorem separator_comma (ls : List Lexeme) :
    Reads (separator close context) (.symbol .comma :: ls) () ls := by
  refine bind_peek ?_
  rw [if_pos rfl]
  exact advance _ _

theorem separator_close (hc : close ≠ .comma) (ls : List Lexeme) :
    Reads (separator close context) (.symbol close :: ls) () (.symbol close :: ls) := by
  refine bind_peek ?_
  rw [if_neg (by simpa using hc), if_pos rfl]
  exact .pure _ _

theorem key_name (k : String) (ls : List Lexeme) :
    Reads key (.name k :: .symbol .arrow :: ls) k ls :=
  bind_peek (bind_advance ((expect _ _ _).bind (.pure _ _)))

theorem key_string (k : String) (ls : List Lexeme) :
    Reads key (.string k :: .symbol .arrow :: ls) k ls :=
  bind_peek (bind_advance ((expect _ _ _).bind (.pure _ _)))

end Reads

/-- The lexemes do not begin with the closing symbol, and they are read up to a comma or the
closing symbol after them. -/
structure ReadsItem (close : Symbol) (item : Reading α) (ls : List Lexeme) (a : α) : Prop where
  begins : ∃ l ms, ls = l :: ms ∧ l ≠ .symbol close
  reads : ∀ s rest, s = .comma ∨ s = close →
    Reads item (ls ++ .symbol s :: rest) a (.symbol s :: rest)

theorem ReadsItem.reads_cons {item : Reading α} {as : List α} (h : ReadsItem close item ls a)
    {n : ℕ} (hs : Reads (separator close context) (.symbol s :: ms) () ns)
    (hcs : s = .comma ∨ s = close) (hrest : Reads (itemsWithin close context item n) ns as rest) :
    Reads (itemsWithin close context item (n + 1)) (ls ++ .symbol s :: ms) (a :: as) rest := by
  obtain ⟨l, ks, rfl, hl⟩ := h.begins
  refine Reads.bind_peek ?_
  rw [if_neg hl]
  exact (h.reads s ms hcs).bind (hs.bind (hrest.bind (.pure _ _)))

theorem ReadsItem.ne_nil {item : Reading α} (h : ReadsItem close item ls a) : ls ≠ [] := by
  obtain ⟨l, ks, rfl, _⟩ := h.begins
  exact List.cons_ne_nil l ks

variable {item : Reading α} {as : List α}

theorem reads_closing (n : ℕ) (rest : List Lexeme) :
    Reads (itemsWithin close context item (n + 1)) (.symbol close :: rest) [] rest := by
  refine Reads.bind_peek ?_
  rw [if_pos rfl]
  exact Reads.bind_advance (.pure _ _)

theorem reads_itemsWithin (hc : close ≠ .comma) (h : CommaList (ReadsItem close item) ls as) {n : ℕ}
    (hn : as.length < n) (rest : List Lexeme) :
    Reads (itemsWithin close context item n) (ls ++ .symbol close :: rest) as rest := by
  obtain ⟨n, rfl⟩ : ∃ k, n = k + 1 := ⟨n - 1, by omega⟩
  induction h generalizing n with
  | nil => exact reads_closing n rest
  | last hitem =>
    obtain ⟨k, rfl⟩ : ∃ k, n = k + 1 := ⟨n - 1, by simp at hn; omega⟩
    exact hitem.reads_cons (Reads.separator_close hc _) (.inr rfl) (reads_closing k rest)
  | cons hitem _ ih =>
    obtain ⟨k, rfl⟩ : ∃ k, n = k + 1 := ⟨n - 1, by simp at hn; omega⟩
    rw [List.append_assoc, List.cons_append]
    exact hitem.reads_cons (Reads.separator_comma _) (.inl rfl) (ih k (by simpa using hn))

/-- The number of tokens is always a sufficient bound on the number of items. -/
theorem reads_items (context : String) (hc : close ≠ .comma)
    (h : CommaList (ReadsItem close item) ls as) (rest : List Lexeme) :
    Reads (items close context item) (ls ++ .symbol close :: rest) as rest := by
  refine Reads.get fun ts hts => reads_itemsWithin hc h ?_ rest
  have hle : as.length ≤ ls.length := h.length_le fun _ _ hitem => hitem.ne_nil
  rw [hts, List.length_append, List.length_cons]
  omega

end Reading
end TypeLattice
