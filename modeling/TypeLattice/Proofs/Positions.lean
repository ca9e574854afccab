import Mathlib.Data.String.Basic
import TypeLattice.Proofs.Loops

/-!
# Positions in a text

A token is known by the text from it on, and so is a fault, so each is a suffix of the whole text.
Counted in bytes, its position is a boundary between characters. A reader hands on what the tokens
say: where it fails, it fails at a token, at a fault of the scanner, or at the end.
-/
namespace TypeLattice

variable {text s : String} {cs ds here rest : List Char} {c quote : Char} {l : Lexeme}
  {p : List Char × List Char}

namespace Text

/-- The number of bytes before the end of a text that begins here. -/
def offset (text : String) (here : List Char) : ℕ := byteCount text.toList - byteCount here

theorem offset_of_append (h : cs ++ here = text.toList) : offset text here = byteCount cs := by
  rw [offset, ← h, byteCount_append, Nat.add_sub_cancel]

/-- What is between two boundaries of a text. -/
structure Slice (text : String) (start stop : ℕ) (s : String) : Prop where
  start_isValid : String.Pos.Raw.IsValid text ⟨start⟩
  stop_isValid : String.Pos.Raw.IsValid text ⟨stop⟩
  le : start ≤ stop
  extract : String.Pos.Raw.extract text ⟨start⟩ ⟨stop⟩ = s

theorem isValid_offset (h : here <:+ text.toList) :
    String.Pos.Raw.IsValid text ⟨offset text here⟩ := by
  obtain ⟨cs, hcs⟩ := h
  refine String.Pos.Raw.isValid_iff_exists_append.2
    ⟨String.ofList cs, String.ofList here, ?_, ?_⟩
  · rw [← String.ofList_append, hcs, String.ofList_toList]
  · rw [offset_of_append hcs, ← utf8ByteSize_ofList]
    rfl

theorem byteCount_eq_utf8Len (cs : List Char) : byteCount cs = String.utf8Len cs := by
  induction cs with
  | nil => rfl
  | cons c cs ih => rw [byteCount, ih, String.utf8Len_cons, Nat.add_comm]

/-- What is taken off the front of a suffix is a slice. -/
theorem slice_of_suffix (h : here <:+ text.toList) (hs : here = s.toList ++ rest) :
    Slice text (offset text here) (offset text rest) s := by
  obtain ⟨cs, hcs⟩ := h
  have hrest : (cs ++ s.toList) ++ rest = text.toList := by rw [List.append_assoc, ← hs, hcs]
  have hstart := offset_of_append hcs
  have hstop : offset text rest = offset text here + byteCount s.toList := by
    rw [offset_of_append hrest, byteCount_append, hstart]
  refine ⟨isValid_offset ⟨cs, hcs⟩, isValid_offset ⟨_, hrest⟩, by omega, ?_⟩
  have hextract := String.extract_of_valid cs s.toList rest
  rwa [hrest, String.ofList_toList, String.ofList_toList, ← byteCount_eq_utf8Len,
    ← byteCount_eq_utf8Len, ← hstart, ← hstop] at hextract

end Text

/-- The text that a token repeats as it is. -/
def Lexeme.slice? : Lexeme → Option String
  | .name s => some s
  | .number cs => some (String.ofList cs)
  | _ => none

namespace Token

theorem takeString_suffix (h : takeString quote cs = .ok p) : p.2 <:+ cs := by
  fun_induction takeString quote cs generalizing p with
  | case1 => cases h
  | case2 => cases h
  | case3 c cs d hd ih =>
    obtain ⟨q, hq, rfl⟩ : ∃ q, takeString quote cs = .ok q ∧ (d :: q.1, q.2) = p := by
      cases ht : takeString quote cs <;> simp_all [Except.map]
    exact ((ih hq).trans (List.suffix_cons c cs)).trans (List.suffix_cons _ _)
  | case4 => cases h
  | case5 c cs =>
    cases h
    exact List.suffix_cons _ _
  | case6 c cs _ _ _ ih =>
    obtain ⟨q, hq, rfl⟩ : ∃ q, takeString quote cs = .ok q ∧ (c :: q.1, q.2) = p := by
      cases ht : takeString quote cs <;> simp_all [Except.map]
    exact (ih hq).trans (List.suffix_cons c cs)

theorem takeString_fault_suffix (h : takeString quote cs = .error (some here)) : here <:+ cs := by
  fun_induction takeString quote cs with
  | case1 => cases h
  | case2 =>
    cases h
    exact List.nil_suffix
  | case3 c cs d hd ih =>
    have hcs : takeString quote cs = .error (some here) := by
      cases ht : takeString quote cs <;> simp_all [Except.map]
    exact ((ih hcs).trans (List.suffix_cons c cs)).trans (List.suffix_cons _ _)
  | case4 c cs =>
    cases h
    exact List.suffix_cons _ _
  | case5 => cases h
  | case6 c cs _ _ _ ih =>
    have hcs : takeString quote cs = .error (some here) := by
      cases ht : takeString quote cs <;> simp_all [Except.map]
    exact (ih hcs).trans (List.suffix_cons c cs)

theorem takeNumber_suffix (cs : List Char) : (takeNumber cs).2 <:+ cs := ⟨_, takeNumber_append cs⟩

theorem next_suffix (c : Char) (cs : List Char) : (next c cs).2 <:+ c :: cs := by
  fun_cases next c cs with
  | case6 rest => exact ⟨['=', '>'], rfl⟩
  | case7 d rest hd => exact takeNumber_suffix _
  | case9 => exact takeNumber_suffix _
  | case10 => exact (takeString_suffix ‹_›).trans (List.suffix_cons _ _)
  | case13 => exact List.IsSuffix.trans ⟨_, takeName_append cs⟩ (List.suffix_cons _ _)
  | _ => exact List.suffix_cons _ _

theorem next_fault_suffix {f : ParseFault} :
    (next c cs).1 = .fault f here → here <:+ c :: cs := by
  fun_cases next c cs with
  | case8 | case11 | case14 =>
    rintro ⟨⟩
    exact List.suffix_rfl
  | case12 =>
    rintro ⟨⟩
    exact (takeString_fault_suffix ‹_›).trans (List.suffix_cons _ _)
  | _ => rintro ⟨⟩

/-- A name and a number are what is taken off the text. -/
theorem next_slice : (next c cs).1.slice? = some s → c :: cs = s.toList ++ (next c cs).2 := by
  fun_cases next c cs with
  | case7 | case9 =>
    rintro ⟨⟩
    rw [String.toList_ofList, takeNumber_append]
  | case13 =>
    rintro ⟨⟩
    rw [String.toList_ofList, List.cons_append, takeName_append]
  | _ => rintro ⟨⟩

/-- What the token says of positions is true of the text. -/
structure Within (cs : List Char) (t : Token) : Prop where
  here : t.here <:+ cs
  fault : ∀ f here, t.lexeme = .fault f here → here <:+ cs
  slice : ∀ s, t.lexeme.slice? = some s → ∃ rest, t.here = s.toList ++ rest

theorem within_next (h : c :: rest <:+ cs) : Within cs ⟨(next c rest).1, c :: rest⟩ :=
  ⟨h, fun _ _ hfault => (next_fault_suffix hfault).trans h, fun _ hs => ⟨_, next_slice hs⟩⟩

theorem within_scan (cs : List Char) : ∀ t ∈ scan cs, t.Within cs := by
  suffices h : ∀ ds, ds <:+ cs → ∀ t ∈ scan ds, t.Within cs from h cs List.suffix_rfl
  intro ds
  fun_induction scan ds with
  | case1 =>
    intro _ t ht
    obtain rfl := List.mem_singleton.1 ht
    exact ⟨List.nil_suffix, by rintro _ _ ⟨⟩, by rintro _ ⟨⟩⟩
  | case2 ds c rest hdrop =>
    intro hds t ht
    obtain rfl := List.mem_singleton.1 ht
    exact within_next ((hdrop ▸ List.dropWhile_suffix _).trans hds)
  | case3 ds c rest hdrop p hfault ih =>
    intro hds t ht
    have hrest : c :: rest <:+ cs := (hdrop ▸ List.dropWhile_suffix _).trans hds
    rcases List.mem_cons.1 ht with rfl | ht
    · exact within_next hrest
    · exact ih ((next_suffix c rest).trans hrest) t ht

end Token

namespace Reading

variable {α β : Type} {m : Reading α} {f : α → Reading β} {ts : List Token} {n : ℕ}
  {close : Symbol} {context : String} {type : Reading TypeExpr}

/-- What the tokens say is true of the text. -/
def Within (cs : List Char) (ts : List Token) : Prop := ∀ t ∈ ts, t.Within cs

/-- The reader leaves tokens of the text, or fails at a place in it. -/
structure Honest (cs : List Char) (m : Reading α) : Prop where
  left : ∀ ts a us, Within cs ts → m.run ts = .ok (a, us) → Within cs us
  here : ∀ ts e, Within cs ts → m.run ts = .error e → e.here <:+ cs

namespace Honest

protected theorem pure (a : α) : Honest cs (pure a) :=
  ⟨by rintro ts _ _ hts ⟨⟩; exact hts, by rintro _ _ _ ⟨⟩⟩

protected theorem fail (f : ParseFault) : Honest cs (fail f : Reading α) := by
  refine ⟨fun ts a us _ h => absurd h (run_fail_ne f ts _), fun ts e hts h => ?_⟩
  cases ts with
  | nil =>
    cases h
    exact List.nil_suffix
  | cons t ts =>
    cases h
    exact (hts t List.mem_cons_self).here

protected theorem bind (h : Honest cs m) (hf : ∀ a, Honest cs (f a)) : Honest cs (m >>= f) := by
  constructor
  · intro ts b vs hts hrun
    obtain ⟨a, us, ha, hb⟩ := run_bind_eq_ok hrun
    exact (hf a).left us b vs (h.left ts a us hts ha) hb
  · intro ts e hts hrun
    rw [StateT.run_bind] at hrun
    cases hm : m.run ts with
    | error =>
      rw [hm] at hrun
      cases hrun
      exact h.here ts _ hts hm
    | ok p =>
      rw [hm] at hrun
      exact (hf p.1).here p.2 e (h.left ts p.1 p.2 hts hm) hrun

protected theorem peek (cs : List Char) : Honest cs peek := by
  constructor
  · rintro ts _ _ hts h
    rw [run_peek] at h
    cases h
    exact hts
  · intro ts e _ h
    rw [run_peek] at h
    cases h

protected theorem advance (cs : List Char) : Honest cs advance := by
  constructor
  · intro ts _ us hts h t ht
    rw [eq_tail_of_advance h] at ht
    exact hts t (List.mem_of_mem_tail ht)
  · intro ts e hts h
    change (do let us ← (liftM (checked ts.tail) : Reading _); set us).run ts = _ at h
    unfold checked at h
    split at h
    · rename_i f place here us htail
      cases h
      have hmem : ⟨.fault f place, here⟩ ∈ ts := List.mem_of_mem_tail (by simp [htail])
      exact (hts _ hmem).fault f place rfl
    · cases h

theorem get {f : List Token → Reading β} (h : ∀ ts, Within cs ts → Honest cs (f ts)) :
    Honest cs (get >>= f) :=
  ⟨fun ts b us hts => (h ts hts).left ts b us hts, fun ts e hts => (h ts hts).here ts e hts⟩

theorem set (hts : Within cs ts) : Honest cs (set ts : Reading PUnit) :=
  ⟨by rintro _ _ _ _ ⟨⟩; exact hts, by rintro _ _ _ ⟨⟩⟩

end Honest

theorem honest_expect (cs : List Char) (s : Symbol) (context : String) :
    Honest cs (expect s context) := by
  refine (Honest.peek cs).bind fun l => ?_
  split
  · exact .advance cs
  · exact .fail _

theorem honest_separator (cs : List Char) (close : Symbol) (context : String) :
    Honest cs (separator close context) := by
  refine (Honest.peek cs).bind fun l => ?_
  split
  · exact .advance cs
  · split
    · exact .pure _
    · exact .fail _

theorem honest_key (cs : List Char) : Honest cs key := by
  have hrest : ∀ k : String, Honest cs (do advance; expect .arrow "after hash key"; return k) :=
    fun k => (Honest.advance cs).bind fun _ => (honest_expect _ _ _).bind fun _ => .pure k
  refine (Honest.peek cs).bind fun l => ?_
  split
  · exact hrest _
  · exact hrest _
  · exact .fail _

theorem honest_number (cs ds : List Char) : Honest cs (number ds) := by
  unfold number
  split
  · exact .pure _
  · split
    · split_ifs
      · exact .pure _
      · exact .fail _
    · exact .fail _

theorem honest_items {item : Reading α} (h : Honest cs item) (close : Symbol) (context : String) :
    Honest cs (items close context item) := by
  refine .get fun ts _ => ?_
  induction ts.length with
  | zero => exact .fail _
  | succ n ih =>
    refine (Honest.peek cs).bind fun l => ?_
    split
    · exact (Honest.advance cs).bind fun _ => .pure _
    · exact h.bind fun x => (honest_separator _ _ _).bind fun _ => ih.bind fun xs => .pure _

theorem honest_value (h : Honest cs type) : Honest cs (value type) := by
  refine .get fun ts _ => ?_
  induction ts.length with
  | zero => exact .fail _
  | succ n ih =>
    refine (Honest.peek cs).bind fun l => ?_
    split
    · split_ifs
      · exact (Honest.advance cs).bind fun _ => .pure _
      · exact (Honest.advance cs).bind fun _ => .pure _
      · exact (Honest.advance cs).bind fun _ => .pure _
      · exact h.bind fun e => .pure _
    · exact (Honest.advance cs).bind fun _ => .pure _
    · exact (honest_number cs _).bind fun v => (Honest.advance cs).bind fun _ => .pure _
    · have helement : Honest cs (do literalOnly (← valueWithin type n)) := by
        refine ih.bind fun d => ?_
        cases d with
        | literal v => exact .pure v
        | type e => exact .fail _
      exact (Honest.advance cs).bind fun _ => (honest_items helement _ _).bind fun vs => .pure _
    · exact .fail _

theorem honest_attributeEntry (h : Honest cs type) : Honest cs (attributeEntry type) := by
  refine .get fun start hstart => (honest_key cs).bind fun k => ?_
  split_ifs
  · exact h.bind fun e => .pure _
  · exact (honest_value h).bind fun d => .pure _
  · exact (Honest.set hstart).bind fun _ => .fail _

theorem honest_attributeOf (h : Honest cs type) : Honest cs (attributeOf type) := by
  have hdecl : Honest cs (attributeDecl type) := by
    refine (Honest.peek cs).bind fun l => ?_
    split
    · refine (Honest.advance cs).bind fun _ =>
        (honest_items (honest_attributeEntry h) _ _).bind fun es => ?_
      split
      · exact .pure _
      · exact .fail _
    · exact h.bind fun e => .pure _
  exact (honest_key cs).bind fun k => hdecl.bind fun a => .pure _

theorem honest_objectEntry (h : Honest cs type) : Honest cs (objectEntry type) := by
  refine .get fun start hstart => (honest_key cs).bind fun k => ?_
  split_ifs
  · refine (Honest.peek cs).bind fun l => ?_
    split
    · exact (Honest.advance cs).bind fun _ => .pure _
    · exact .fail _
  · exact h.bind fun e => .pure _
  · exact (honest_expect _ _ _).bind fun _ =>
      (honest_items (honest_attributeOf h) _ _).bind fun as => .pure _
  · exact (Honest.set hstart).bind fun _ => .fail _

theorem honest_typeExpr (cs : List Char) : Honest cs typeExpr := by
  refine .get fun ts _ => ?_
  induction ts.length with
  | zero => exact .fail _
  | succ n ih =>
    have hobject : Honest cs (objectDecl (typeWithin n)) :=
      (honest_expect _ _ _).bind fun _ =>
        (honest_items (honest_objectEntry ih) _ _).bind fun es => .pure _
    refine (Honest.peek cs).bind fun l => ?_
    split
    · refine (Honest.advance cs).bind fun _ => (Honest.peek cs).bind fun l => ?_
      split
      · refine (Honest.advance cs).bind fun _ => (Honest.peek cs).bind fun l => ?_
        split
        · exact hobject.bind fun d => (honest_expect _ _ _).bind fun _ => .pure _
        · exact (honest_items ih _ _).bind fun es => .pure _
      · exact .pure _
    · exact .fail _

theorem honest_whole (cs : List Char) : Honest cs whole := by
  rw [whole_eq]
  refine (honest_typeExpr cs).bind fun e => (Honest.peek cs).bind fun l => ?_
  split
  · exact .pure e
  · exact .fail _

end Reading

namespace TypeExpr

open Reading

theorem here_of_parseChars {e : Misread} (h : parseChars cs = .error e) : e.here <:+ cs := by
  have hscan : Within cs (Token.scan cs) := Token.within_scan cs
  unfold parseChars checked at h
  split at h
  · rename_i f place here ts hts
    cases h
    exact (hscan ⟨.fault f place, here⟩ (by simp [hts])).fault f place rfl
  · refine (honest_whole cs).here _ e hscan ?_
    cases hrun : whole.run (Token.scan cs) with
    | error =>
      simp only [hrun, bind, Except.bind] at h
      cases h
      rfl
    | ok p => simp [hrun, bind, Except.bind, pure, Except.pure] at h

/-- Reading a text ends: so does each loop in it, on the tokens of the text. The names and the
numbers among the tokens are slices of the text, and a text that is not read is refused at a
boundary between two characters, or at one of its ends. -/
theorem parse_total :
    (∀ (α : Type) (turn : Reading α → Reading α) (m : Reading α), Loop turn m → Terminates turn m) ∧
    ∀ text : String,
      Closed (Token.scan text.toList) ∧
      (∀ t ∈ Token.scan text.toList, ∀ s, t.lexeme.slice? = some s →
        ∃ stop, Text.Slice text (Text.offset text t.here) stop s) ∧
      ∀ e, parse text = .error e → ∃ position fault, e = .parse position fault ∧
        position ≤ text.utf8ByteSize ∧ String.Pos.Raw.IsValid text ⟨position⟩ := by
  refine ⟨fun _ _ _ => Loop.terminates, fun text => ⟨closed_scan _, ?_, ?_⟩⟩
  · intro t ht s hs
    have hwithin := Token.within_scan _ t ht
    obtain ⟨rest, hrest⟩ := hwithin.slice s hs
    exact ⟨_, Text.slice_of_suffix hwithin.here hrest⟩
  · intro e h
    unfold parse at h
    split at h
    · cases h
    · rename_i m hm
      cases h
      have hvalid := Text.isValid_offset (here_of_parseChars hm)
      exact ⟨_, m.fault, rfl, hvalid.le_utf8ByteSize, hvalid⟩

/-- The escape is refused after the quote, the letter of two bytes and the backslash. -/
theorem parse_total_escape : parse "'é\\q'" = .error (.parse 4 .invalidEscape) ∧
    String.Pos.Raw.IsValid "'é\\q'" ⟨4⟩ := by
  have hscan : Token.scan "'é\\q'".toList =
      [⟨.fault .invalidEscape ['q', '\''], "'é\\q'".toList⟩] := by decide +kernel
  have hparse : parse "'é\\q'" = .error (.parse 4 .invalidEscape) := by
    rw [parse, parseChars, hscan]
    rfl
  obtain ⟨position, fault, heq, -, hvalid⟩ := (parse_total.2 _).2.2 _ hparse
  obtain ⟨rfl, -⟩ := TypeError.parse.inj heq
  exact ⟨hparse, hvalid⟩

end TypeExpr
end TypeLattice
