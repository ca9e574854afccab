import TypeLattice.Proofs.Positional

/-!
# The order of attributes

An attribute is looked up along the line of ancestors, or found in the table of all attributes. The
table of an object type is that of its parent with its own attributes inserted, and an insertion
adds a name at the end or leaves the names as they are. So the names of an ancestor come first in
every descendant, and an argument goes to the same name in all of them.
-/
namespace TypeLattice

namespace Table

variable {α : Type}

theorem keys_prefix_insert (t : Table α) (k : String) (v : α) : t.keys <+: (t.insert k v).keys := by
  unfold keys
  rw [entries_insert]
  by_cases hk : k ∈ t.entries.map (·.1)
  · rw [keys_put_of_mem hk]
  · rw [put_of_not_mem hk, List.map_append]
    apply List.prefix_append

theorem keys_prefix_foldl_insert (es : List (String × α)) (t : Table α) :
    t.keys <+: (es.foldl (fun t e => t.insert e.1 e.2) t).keys := by
  induction es generalizing t with
  | nil => exact List.prefix_rfl
  | cons e es ih => exact (keys_prefix_insert t e.1 e.2).trans (ih _)

end Table

namespace Store

variable {s s' : Store} {o p c : ObjectId} {k : String} {a : Attribute} {args : List Value}
  {fields : List (String × Value)} {v x : Value} {i : ℕ}

theorem attribute?_eq_some_iff :
    s.attribute? o k = some a ↔ (k, a) ∈ (s.allAttributes o).entries := by
  rw [← get?_allAttributes]
  exact ⟨Table.mem_of_get?, fun h => Table.get?_of_mem h⟩

theorem attribute?_eq_none_iff :
    s.attribute? o k = none ↔ k ∉ (s.allAttributes o).keys := by
  rw [← get?_allAttributes, Table.mem_keys_iff, Option.eq_none_iff_forall_ne_some, not_exists]

/-- `p` is `c`, or the parent of `c`, or the parent of that, and so on. -/
def Ancestor (s : Store) (p c : ObjectId) : Prop :=
  Relation.ReflTransGen (fun x y => s.parent? x = some y) c p

theorem allAttributes_of_parent (hs : s.Rooted) (hp : s.parent? o = some p) :
    s.allAttributes o =
      (s.ownAttributes o).entries.foldl (fun t e => t.insert e.1 e.2) (s.allAttributes p) := by
  unfold allAttributes
  rw [hs.line_of_parent hp, List.reverse_cons, List.foldl_append, List.foldl_cons, List.foldl_nil]

theorem Ancestor.prefix_keys (hs : s.Rooted) (h : s.Ancestor p c) :
    (s.allAttributes p).keys <+: (s.allAttributes c).keys := by
  induction h using Relation.ReflTransGen.head_induction_on with
  | refl => exact List.prefix_rfl
  | @head o q parent _ ih =>
    rw [allAttributes_of_parent hs parent]
    exact ih.trans (Table.keys_prefix_foldl_insert _ _)

theorem filled_of_fill (h : s.fill o args = .ok fields) :
    Filled (s.allAttributes o).entries args fields := by
  rcases fill_cases s o args with
    ⟨-, hfill⟩ | ⟨-, ⟨-, fields', hfill, hfilled⟩ | ⟨i, a, x, -, hfill⟩⟩
  · cases h.symm.trans hfill
  · cases h.symm.trans hfill
    exact hfilled
  · cases h.symm.trans hfill

/-- The field with the name at a place has the argument at that place. -/
theorem Filled.find?_eq {t : Table Attribute} (h : Filled t.entries args fields)
    (hk : t.keys[i]? = some k) (hx : args[i]? = some x) : find? k fields = some x := by
  have hnames : fields[i]?.map (·.1) = some k := by
    rw [← List.getElem?_map, h.names]
    exact hk
  obtain ⟨⟨k', y⟩, hf, rfl⟩ := Option.map_eq_some_iff.1 hnames
  obtain ⟨e, he, -⟩ := Option.map_eq_some_iff.1 ((List.getElem?_map ..).symm.trans hk)
  have hy : offered? args i e.2 = some y := h.values i e (k', y) he hf
  rw [offered?, hx, Option.some_or] at hy
  rw [hy]
  refine find?_of_mem ?_ (List.mem_of_getElem? hf)
  rw [h.names]
  exact t.nodup

/-- Looking up a name gives its entry in the table of all attributes, which has no name twice, and
nothing if there is none. The names of an ancestor are the first names of the table, in their order.
So an object made from arguments has each of them under the name it would have in an object of the
ancestor. -/
theorem attributeViews_agree (hb : s.Built) :
    (∀ o, (s.allAttributes o).keys.Nodup) ∧
    (∀ o k, (∀ a, s.attribute? o k = some a ↔ (k, a) ∈ (s.allAttributes o).entries) ∧
      (s.attribute? o k = none ↔ k ∉ (s.allAttributes o).keys)) ∧
    ∀ p c, s.Ancestor p c →
      (s.allAttributes p).keys <+: (s.allAttributes c).keys ∧
      (s.constructor? c = none → ∀ args v s', Making.create c args s = .ok v s' →
        ∃ n fields, v = .object n c fields ∧ ∀ (i : ℕ) k x,
          (s.allAttributes p).keys[i]? = some k → args[i]? = some x → find? k fields = some x) := by
  refine ⟨fun o => (s.allAttributes o).nodup,
    fun o k => ⟨fun a => attribute?_eq_some_iff, attribute?_eq_none_iff⟩, ?_⟩
  intro p c h
  have hkeys := h.prefix_keys hb.wellFormed.rooted
  refine ⟨hkeys, ?_⟩
  intro hc args v s' hcreate
  obtain ⟨fields, hfill, rfl, -⟩ := of_create hc hcreate
  refine ⟨_, fields, rfl, ?_⟩
  intro i k x hk hx
  have hlt : i < (s.allAttributes p).keys.length := (List.getElem?_eq_some_iff.1 hk).1
  obtain ⟨rest, hrest⟩ := hkeys
  apply (filled_of_fill hfill).find?_eq _ hx
  rw [← hrest, List.getElem?_append_left hlt, hk]

theorem overriding_views_agree : overriding.Built ∧
    overriding.Ancestor (.declared 0) (.declared 1) ∧
    (overriding.allAttributes (.declared 0)).keys = ["size", "note"] ∧
    (overriding.allAttributes (.declared 1)).keys = ["size", "note", "flag"] ∧
    (overriding.allAttributes (.declared 0)).keys <+:
      (overriding.allAttributes (.declared 1)).keys ∧
    overriding.attribute? (.declared 1) "size" = some { type := .basic .string } ∧
    ("size", { type := .basic .string }) ∈ (overriding.allAttributes (.declared 1)).entries ∧
    overriding.constructor? (.declared 1) = none ∧
    ∃ fields, Making.create (.declared 1) [.string "large", .undef, .bool true] overriding =
        .ok (.object 1 (.declared 1) fields) overriding.freshMark.2 ∧
      find? "size" fields = some (.string "large") := by
  have hancestor : overriding.Ancestor (.declared 0) (.declared 1) := .single rfl
  have hsize : overriding.attribute? (.declared 1) "size" = some { type := .basic .string } := by
    decide +kernel
  obtain ⟨-, hviews, hline⟩ := attributeViews_agree built_overriding
  obtain ⟨hkeys, hfields⟩ := hline _ _ hancestor
  obtain ⟨n, fields, hv, hfind⟩ := hfields rfl _ _ _ create_overriding
  cases hv
  exact ⟨built_overriding, hancestor, by decide +kernel, by decide +kernel, hkeys, hsize,
    ((hviews _ _).1 _).1 hsize, rfl, _, create_overriding, hfind 0 "size" _ (by decide +kernel) rfl⟩

end Store
end TypeLattice
