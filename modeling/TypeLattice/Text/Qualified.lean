/-!
# Qualified names

The name of a member of a type set is written `Set::Member`. A name is split at its first `::`.
-/

namespace TypeLattice.Text

def qualify (set member : String) : String := set ++ "::" ++ member

/-- What stands before and after the first `::`. -/
def splitChars : List Char → Option (List Char × List Char)
  | ':' :: ':' :: cs => some ([], cs)
  | c :: cs => (splitChars cs).map fun p => (c :: p.1, p.2)
  | [] => none

def split? (name : String) : Option (String × String) :=
  (splitChars name.toList).map fun p => (String.ofList p.1, String.ofList p.2)

/-- The rest of a text after a given start. -/
def afterChars : List Char → List Char → Option (List Char)
  | [], cs => some cs
  | _ :: _, [] => none
  | p :: ps, c :: cs => if p = c then afterChars ps cs else none

def after? (start name : String) : Option String :=
  (afterChars start.toList name.toList).map String.ofList

theorem afterChars_eq_some_iff {start cs rest : List Char} :
    afterChars start cs = some rest ↔ cs = start ++ rest := by
  induction start generalizing cs with
  | nil => simp [afterChars, eq_comm]
  | cons p ps ih =>
    cases cs with
    | nil => simp [afterChars]
    | cons c cs =>
      by_cases h : p = c
      · simp [afterChars, h, ih]
      · simp [afterChars, h, Ne.symm h]

theorem eq_append_of_splitChars {cs a b : List Char} (h : splitChars cs = some (a, b)) :
    cs = a ++ ':' :: ':' :: b := by
  fun_induction splitChars cs generalizing a with
  | case1 cs => simp_all
  | case2 c cs _ ih =>
    obtain ⟨⟨x, y⟩, hp, he⟩ := Option.map_eq_some_iff.1 h
    obtain ⟨rfl, rfl⟩ := Prod.mk.inj he
    simp [ih hp]
  | case3 => simp at h

/-- Before the first `::` there is no colon at the end. -/
theorem getLast?_ne_of_splitChars {cs a b : List Char} (h : splitChars cs = some (a, b)) :
    a.getLast? ≠ some ':' := by
  fun_induction splitChars cs generalizing a with
  | case1 cs =>
    obtain ⟨rfl, _⟩ := Prod.mk.inj (Option.some.inj h)
    simp
  | case2 c cs hne ih =>
    obtain ⟨⟨x, y⟩, hp, he⟩ := Option.map_eq_some_iff.1 h
    obtain ⟨rfl, rfl⟩ := Prod.mk.inj he
    cases x with
    | nil =>
      intro hc
      obtain rfl : c = ':' := by simpa using hc
      exact hne _ rfl (eq_append_of_splitChars hp)
    | cons d x =>
      rw [List.getLast?_cons_cons]
      exact ih hp
  | case3 => simp at h

/-- Before the first `::` there is none. -/
theorem splitChars_fst {cs a b : List Char} (h : splitChars cs = some (a, b)) :
    splitChars a = none := by
  fun_induction splitChars cs generalizing a with
  | case1 cs =>
    obtain ⟨rfl, _⟩ := Prod.mk.inj (Option.some.inj h)
    rfl
  | case2 c cs hne ih =>
    obtain ⟨⟨x, y⟩, hp, he⟩ := Option.map_eq_some_iff.1 h
    obtain ⟨rfl, rfl⟩ := Prod.mk.inj he
    have hcs := eq_append_of_splitChars hp
    rw [splitChars, ih hp]
    · rfl
    · rintro ds rfl rfl
      exact hne _ rfl hcs
  | case3 => simp at h

theorem ne_append_of_splitChars {cs : List Char} (h : splitChars cs = none) (a b : List Char) :
    cs ≠ a ++ ':' :: ':' :: b := by
  fun_induction splitChars cs generalizing a with
  | case1 cs => simp at h
  | case2 c cs hne ih =>
    have hcs : splitChars cs = none := by simpa using h
    cases a with
    | nil =>
      intro he
      obtain ⟨rfl, rfl⟩ := List.cons.inj he
      exact hne _ rfl rfl
    | cons d a => exact fun he => ih hcs a (List.cons.inj he).2
  | case3 => simp

theorem splitChars_append {a : List Char} (h : splitChars a = none) (hlast : a.getLast? ≠ some ':')
    (b : List Char) : splitChars (a ++ ':' :: ':' :: b) = some (a, b) := by
  fun_induction splitChars a with
  | case1 cs => simp at h
  | case2 c cs hne ih =>
    have hcs : splitChars cs = none := by simpa using h
    cases cs with
    | nil =>
      have hc : c ≠ ':' := by simpa using hlast
      simp [splitChars, hc]
    | cons d cs =>
      rw [List.getLast?_cons_cons] at hlast
      rw [List.cons_append, splitChars, ih hcs hlast]
      · rfl
      · rintro es rfl he
        obtain ⟨rfl, _⟩ := List.cons.inj he
        exact hne _ rfl rfl
  | case3 => rfl

def EndsInColon (name : String) : Prop := name.toList.getLast? = some ':'

theorem toList_qualify (set member : String) :
    (qualify set member).toList = set.toList ++ ':' :: ':' :: member.toList := by
  simp [qualify]

theorem split?_eq_some {name set member : String} (h : split? name = some (set, member)) :
    name = qualify set member ∧ ¬EndsInColon set := by
  obtain ⟨⟨a, b⟩, hp, he⟩ := Option.map_eq_some_iff.1 h
  obtain ⟨rfl, rfl⟩ := Prod.mk.inj he
  refine ⟨?_, ?_⟩
  · apply String.toList_inj.1
    simpa [toList_qualify] using eq_append_of_splitChars hp
  · simpa [EndsInColon] using getLast?_ne_of_splitChars hp

theorem split?_fst {name set member : String} (h : split? name = some (set, member)) :
    split? set = none := by
  obtain ⟨⟨a, b⟩, hp, he⟩ := Option.map_eq_some_iff.1 h
  obtain ⟨rfl, rfl⟩ := Prod.mk.inj he
  simp [split?, splitChars_fst hp]

/-- A qualified name is split where it was put together, unless colons meet there. -/
theorem split?_qualify {set : String} (h : split? set = none) (hlast : ¬EndsInColon set)
    (member : String) : split? (qualify set member) = some (set, member) := by
  have hset : splitChars set.toList = none := by simpa [split?] using h
  simp [split?, toList_qualify, splitChars_append hset hlast]

theorem split?_qualify_ne_none (set member : String) : split? (qualify set member) ≠ none := by
  intro h
  have hchars : splitChars (qualify set member).toList = none := by simpa [split?] using h
  exact ne_append_of_splitChars hchars _ _ (toList_qualify set member)

theorem qualify_injective {set a b : String} (h : qualify set a = qualify set b) : a = b := by
  have hchars := congrArg String.toList h
  simp only [toList_qualify, List.append_cancel_left_eq, List.cons.injEq, true_and] at hchars
  exact String.toList_inj.1 hchars

theorem qualify_ne (set member : String) : qualify set member ≠ set := by
  intro h
  have := congrArg (fun s => s.toList.length) h
  simp [toList_qualify] at this

theorem qualify_ne_member (set member : String) : qualify set member ≠ member := by
  intro h
  have := congrArg (fun s => s.toList.length) h
  rw [toList_qualify, List.length_append, List.length_cons, List.length_cons] at this
  omega

end TypeLattice.Text
