import TypeLattice.Proofs.Resolving

/-!
# Members of type sets

The members of a type set get their bodies one after the other. Whether one of them is refused does
not depend on the order: if the set can be built at all, in any order and anywhere, then the walk
along the parents of a member is, as far as it is known yet, also a walk in that other set, where it
does not come back to the member.
-/
namespace TypeLattice

open Runs

/-- In a table without repeated values each value has one name. -/
theorem Table.name_unique {α : Type} {t : Table α} (h : t.values.Nodup) {k l : String} {v : α}
    (hk : t.get? k = some v) (hl : t.get? l = some v) : k = l :=
  congrArg Prod.fst (List.inj_on_of_nodup_map h (mem_of_get? hk) (mem_of_get? hl) rfl)

/-- The two types are the members of one name in two sets. -/
def SameMember (members members' : Table ObjectId) (t u : Ty) : Prop :=
  ∃ k o p, members.get? k = some o ∧ members'.get? k = some p ∧ t = .object o ∧ u = .object p

namespace Resolver

variable {P : Ty → Ty → Prop} {outer outer' : Resolver} {setName n k : String} {t : Ty}
  {members members' : Table ObjectId} {o : ObjectId}

/-- The member that a name is looked up as inside a set, whether or not there is one. -/
def memberName? (setName n : String) : Option String :=
  match Text.split? n with
  | none => some n
  | some (qualifier, simple) => if qualifier = setName then some simple else none

theorem inside_eq (outer : Resolver) (setName : String) (members : Table ObjectId) (n : String) :
    outer.inside setName members n =
      ((memberName? setName n).bind members.get?).elim (outer n) fun o => some (.object o) := by
  unfold inside memberName?
  cases Text.split? n with
  | none =>
    simp only [Option.bind_some]
    cases members.get? n <;> rfl
  | some q =>
    by_cases hq : q.1 = setName
    · simp only [hq, if_true, Option.bind_some]
      cases members.get? q.2 <;> rfl
    · simp only [hq, if_false, Option.bind_none]
      rfl

theorem memberName?_of_split? (h : Text.split? k = none) : memberName? setName k = some k := by
  simp [memberName?, h]

theorem memberName?_qualify (h : Text.split? setName = none) (hlast : ¬Text.EndsInColon setName)
    (k : String) : memberName? setName (Text.qualify setName k) = some k := by
  simp [memberName?, Text.split?_qualify h hlast]

theorem memberName?_self_iff : memberName? setName k = some k ↔ Text.split? k = none := by
  refine ⟨fun h => ?_, memberName?_of_split?⟩
  unfold memberName? at h
  cases hk : Text.split? k with
  | none => rfl
  | some q =>
    obtain ⟨qualifier, simple⟩ := q
    simp only [hk] at h
    split_ifs at h
    obtain rfl := Option.some.inj h
    exact absurd (Text.split?_eq_some hk).1.symm (Text.qualify_ne_member qualifier simple)

/-- The first `::` of a qualified name is the one before the member if the name of the set has none
and adds no colon to it. -/
theorem memberName?_qualify_iff : memberName? setName (Text.qualify setName k) = some k ↔
    Text.split? setName = none ∧ ¬Text.EndsInColon setName := by
  refine ⟨fun h => ?_, fun h => memberName?_qualify h.1 h.2 k⟩
  unfold memberName? at h
  cases hk : Text.split? (Text.qualify setName k) with
  | none => exact absurd hk (Text.split?_qualify_ne_none setName k)
  | some q =>
    obtain ⟨qualifier, simple⟩ := q
    simp only [hk] at h
    split_ifs at h with hq
    subst hq
    exact ⟨Text.split?_fst hk, (Text.split?_eq_some hk).2⟩

/-- A member is looked up inside a set under the names that stand for its own. -/
theorem inside_eq_member_iff (ho : members.get? k = some o) (houter : outer n ≠ some (.object o))
    (hunique : ∀ l, members.get? l = some o → l = k) :
    outer.inside setName members n = some (.object o) ↔ memberName? setName n = some k := by
  rw [inside_eq]
  constructor
  · intro h
    cases hm : (memberName? setName n).bind members.get? with
    | none =>
      rw [hm] at h
      exact absurd h houter
    | some p =>
      rw [hm] at h
      obtain rfl := Ty.object.inj (Option.some.inj h)
      obtain ⟨l, hl, hp⟩ := Option.bind_eq_some_iff.1 hm
      rw [hl, hunique l hp]
  · intro h
    rw [h, Option.bind_some, ho]
    rfl

/-- A name is looked up as a member either by its simple or by its qualified name. -/
theorem eq_of_memberName? (h : memberName? setName n = some k) :
    n = k ∨ n = Text.qualify setName k ∧ ¬Text.EndsInColon setName := by
  unfold memberName? at h
  cases hn : Text.split? n with
  | none =>
    rw [hn] at h
    exact .inl (Option.some.inj h)
  | some q =>
    obtain ⟨qualifier, simple⟩ := q
    rw [hn] at h
    by_cases hq : qualifier = setName
    · simp only [hq, if_true, Option.some.injEq] at h
      subst hq h
      exact .inr (Text.split?_eq_some hn)
    · simp [hq] at h

/-- What a name gives inside a set is a member, or else what it gives outside. -/
theorem inside_eq_some (h : outer.inside setName members n = some t) :
    outer n = some t ∨ ∃ k o, members.get? k = some o ∧ t = .object o := by
  rw [inside_eq] at h
  cases hm : (memberName? setName n).bind members.get? with
  | none =>
    rw [hm] at h
    exact .inl h
  | some o =>
    rw [hm] at h
    obtain ⟨k, _, hk⟩ := Option.bind_eq_some_iff.1 hm
    exact .inr ⟨k, o, hk, (Option.some.inj h).symm⟩

/-- Inside two sets with members of the same names, names give related types if they do outside. -/
theorem rel_inside (hkeys : ∀ k, k ∈ members.keys ↔ k ∈ members'.keys)
    (houter : ∀ n, Option.Rel P (outer n) (outer' n)) (n : String) :
    Option.Rel (fun t u => SameMember members members' t u ∨ P t u)
      (outer.inside setName members n) (outer'.inside setName members' n) := by
  have houter := Option.Rel.mono
    (fun t u h => (Or.inr h : SameMember members members' t u ∨ P t u)) (houter n)
  rw [inside_eq, inside_eq]
  cases memberName? setName n with
  | none => exact houter
  | some k =>
    have hmembers : Option.Rel (fun o p => SameMember members members' (.object o) (.object p))
        (members.get? k) (members'.get? k) :=
      Table.rel_get?_of_keys hkeys (fun k o p ho hp => ⟨k, o, p, ho, hp, rfl, rfl⟩) k
    simp only [Option.bind_some]
    generalize members.get? k = x at hmembers
    generalize members'.get? k = y at hmembers
    cases hmembers with
    | none => exact houter
    | some hsame => exact .some (.inl hsame)

end Resolver

namespace Store

variable {s s' c c' S : Store} {r r' : Resolver} {d : ObjectDecl} {o p o' p' : ObjectId} {t : Ty}
  {b b' : Body ObjectId} {k : String}

/-- The object type has a body, which stands for the declaration. -/
structure Realizes (s : Store) (r : Resolver) (d : ObjectDecl) (o : ObjectId) (b : Body ObjectId) :
    Prop where
  body : s.body? o = some b
  stands : d.Stands (s.Denotes r) b.asked
  literal : badDefault? b.attributes = none

theorem Realizes.later (h : s.Realizes r d o b) (hs : s.Grows c) : c.Realizes r d o b where
  body := hs.body _ _ h.body
  stands := h.stands.mono fun _ _ _ ht => ht.later hs
  literal := h.literal

theorem Realizes.proper (h : s.Realizes r d o b) : Proper b.asked := proper_asked h.literal

/-- Only a name or a declaration denotes an object type. -/
theorem Denotes.of_object {e : TypeExpr} (h : s.Denotes r e (.object o)) :
    (∃ n, e = .named n [] ∧ r n = some (.object o)) ∨
      ∃ d b, e = .object d ∧ s.name? o = d.name ∧ s.Realizes r d o b := by
  generalize ht : Ty.object o = t at h
  cases h with
  | name resolved => exact .inl ⟨_, rfl, ht ▸ resolved⟩
  | @former n f e u m variant parameter =>
    obtain ⟨i, hi⟩ := Ty.formed_eq f u m
    cases ht.trans hi
  | object name body stands literal =>
    obtain rfl := Ty.object.inj ht
    exact .inr ⟨_, _, rfl, name, body, stands, literal⟩

/-- Bodies that stand for one declaration have parents that one expression denotes. -/
theorem parents_of_stands {b b' : Body Ty} (h : d.Stands (s.Denotes r) b)
    (h' : d.Stands (S.Denotes r') b') :
    Option.Rel (fun t u => ∃ e, s.Denotes r e t ∧ S.Denotes r' e u) b.parent b'.parent :=
  (h.matched h' fun e _ _ _ ht hu => ⟨e, ht, hu⟩).parent

theorem Grows.of_resolve {b : Body Ty} (h : s.resolve o b = .ok s') : s.Grows s' := by
  obtain ⟨parent, _, _, hopen, rfl⟩ := resolve_eq_ok_iff.1 h
  refine ⟨fun a ha => ?_, fun q _ => name?_setBody s o q _, fun q b hq => ?_, fun a _ => ?_⟩
  · exact ha.mono (size_objects_setBody _ _ _).ge (congrArg _ (sets_setBody _ _ _)).ge
  · have hne : q ≠ o := by
      rintro rfl
      cases hq.symm.trans hopen
    rwa [body?_setBody_of_ne hne]
  · exact set_congr (sets_setBody _ _ _) a

theorem body?_setBody_of_knows (hk : s.Knows (.object o)) (hopen : s.body? o = none)
    (b : Body ObjectId) : (s.setBody o b).body? o = some b := by
  cases o with
  | default | describing => cases hopen
  | declared n => exact body?_setBody_self hk

section Members

variable {members members' : Table ObjectId} {types rest : List (String × ObjectDecl)}

/-- What the members of a set are resolved with: names that give a member or else what was there
before the members were made, and declarations whose literal values refer to what was there. -/
structure Site (s : Store) (r : Resolver) (members : Table ObjectId)
    (types : List (String × ObjectDecl)) : Prop where
  built : s.Built
  keys : members.keys = types.map (·.1)
  distinct : members.values.Nodup
  fresh : ∀ k o, members.get? k = some o → ¬s.Knows (.object o)
  names : ∀ n t, r n = some t → s.Has t ∨ ∃ k o, members.get? k = some o ∧ t = .object o
  literals : ∀ e ∈ types, ∀ v, (TypeExpr.object e.2).HasLiteral v → s.HasValue v

/-- A store on the way: each member that has a body so far has one that stands for its
declaration. -/
structure Progress (s : Store) (r : Resolver) (members : Table ObjectId)
    (types : List (String × ObjectDecl)) (c : Store) : Prop where
  onward : s.Extends c
  built : c.Built
  knows : ∀ k o, members.get? k = some o → c.Knows (.object o)
  realized : ∀ e ∈ types, ∀ o b, members.get? e.1 = some o → c.body? o = some b →
    c.Realizes r e.2 o b

/-- A set of the same declarations that was built somewhere, under names that differ only in which
types of one variant they give. -/
structure Solution (s : Store) (r : Resolver) (members : Table ObjectId)
    (types : List (String × ObjectDecl)) (S : Store) (r' : Resolver) (members' : Table ObjectId) :
    Prop where
  rooted : S.Rooted
  names : ∀ n, Option.Rel
    (fun u t => SameMember members' members u t ∨ u.variant = t.variant ∧ s.Has t) (r' n) (r n)
  realized : ∀ e ∈ types, ∃ o b, members'.get? e.1 = some o ∧ S.Realizes r' e.2 o b

theorem Site.exists_member (h : Site s r members types) {e : String × ObjectDecl} (he : e ∈ types) :
    ∃ o, members.get? e.1 = some o :=
  Table.mem_keys_iff.1 (h.keys ▸ List.mem_map_of_mem he)

theorem Site.exists_declaration (h : Site s r members types) (ho : members.get? k = some o) :
    ∃ d, (k, d) ∈ types := by
  have hk : k ∈ members.keys := Table.mem_keys_iff.2 ⟨o, ho⟩
  rw [h.keys] at hk
  obtain ⟨e, he, rfl⟩ := List.mem_map.1 hk
  exact ⟨e.2, he⟩

theorem Progress.later (h : Progress s r members types c) (hc : c.Extends c') (hb : c'.Built) :
    Progress s r members types c' where
  onward := h.onward.trans hc
  built := hb
  knows k o ho := hc.knows (h.knows k o ho)
  realized e he o b ho hbody := by
    rw [hc.body o (h.knows _ o ho)] at hbody
    exact (h.realized e he o b ho hbody).later hc.grows

theorem Progress.names (h : Progress s r members types c) (hs : Site s r members types) {n : String}
    (hn : r n = some t) : c.Has t := by
  rcases hs.names n t hn with ht | ⟨k, o, ho, rfl⟩
  · exact h.onward.has ht
  · exact has_object.2 (h.knows k o ho)

/-- An object type in `S` stands for one in `c`: that one was there before, or they are members of
one name, or bodies of one declaration. -/
inductive Counterpart (s : Store) (r : Resolver) (members : Table ObjectId) (c S : Store)
    (r' : Resolver) (members' : Table ObjectId) (p' p : ObjectId) : Prop
  | known (known : s.Knows (.object p))
  | member (same : SameMember members' members (.object p') (.object p))
  | declared {d : ObjectDecl} {b b' : Body ObjectId} (here : c.Realizes r d p b)
      (there : S.Realizes r' d p' b')

section Counterparts

variable (hs : Site s r members types) (hc : Progress s r members types c)
  (hS : Solution s r members types S r' members')

include hS

theorem Solution.counterpart {e : TypeExpr} (h' : S.Denotes r' e (.object p'))
    (h : c.Denotes r e (.object p)) : Counterpart s r members c S r' members' p' p := by
  rcases h.of_object with ⟨n, rfl, hn⟩ | ⟨d, b, rfl, _, hbody⟩
  · rcases h'.of_object with ⟨n', he, hn'⟩ | ⟨d', b', he, _⟩
    · obtain rfl : n = n' := (TypeExpr.named.inj he).1
      have hrel := hS.names n
      rw [hn, hn'] at hrel
      rcases Option.rel_some_some.1 hrel with hsame | ⟨_, hknown⟩
      · exact .member hsame
      · exact .known (has_object.1 hknown)
    · cases he
  · rcases h'.of_object with ⟨n', he, _⟩ | ⟨d', b', he, _, hbody'⟩
    · cases he
    · cases he
      exact .declared hbody hbody'

include hs hc

/-- Counterparts with bodies stand for one declaration, unless they were there before. -/
theorem Counterpart.realized (h : Counterpart s r members c S r' members' p' p)
    (hb : c.body? p = some b) :
    s.Knows (.object p) ∨ ∃ d b', c.Realizes r d p b ∧ S.Realizes r' d p' b' := by
  cases h with
  | known hknown => exact .inl hknown
  | member same =>
    obtain ⟨k, q', q, hq', hq, hp', hp⟩ := same
    obtain rfl := Ty.object.inj hp'
    obtain rfl := Ty.object.inj hp
    obtain ⟨d, hd⟩ := hs.exists_declaration hq
    obtain ⟨o', b', ho', hbody'⟩ := hS.realized _ hd
    obtain rfl := Option.some.inj (hq'.symm.trans ho')
    exact .inr ⟨d, b', hc.realized _ hd _ _ hq hb, hbody'⟩
  | @declared d b₁ b' here there =>
    obtain rfl := Option.some.inj (here.body.symm.trans hb)
    exact .inr ⟨d, b', here, there⟩

/-- Counterparts have parents that are counterparts. -/
theorem Counterpart.parent {q : ObjectId} (h : Counterpart s r members c S r' members' p' p)
    (hq : c.parent? p = some q) :
    s.Knows (.object q) ∨
      ∃ q', S.parent? p' = some q' ∧ Counterpart s r members c S r' members' q' q := by
  obtain ⟨b, hb, hbq⟩ := Option.bind_eq_some_iff.1 hq
  rcases h.realized hs hc hS hb with hknown | ⟨d, b', hbody, hbody'⟩
  · left
    rw [hc.onward.parent? hknown] at hq
    exact hs.built.wellFormed.known (.object p) _ (by simp [children, hq])
  · right
    have hparents := parents_of_stands hbody'.stands hbody.stands
    simp only [Body.asked, Body.withParent, hbq, Option.map_some] at hparents
    obtain ⟨t, ht, e, he', he⟩ := Option.Rel.exists_left hparents
    obtain ⟨q', hq', rfl⟩ := Option.map_eq_some_iff.1 ht
    exact ⟨q', by simp [parent?, hbody'.body, hq'], hS.counterpart he' he⟩

/-- Where the walk from `p` comes to a member that has no body yet, the walk from the counterpart of
`p` comes to the member of that name. -/
theorem Counterpart.mem_line (ho : members.get? k = some o) (ho' : members'.get? k = some o')
    (hopen : c.body? o = none) {l : List ObjectId} (hline : Line c p l)
    (h : Counterpart s r members c S r' members' p' p) (hmem : o ∈ l) : o' ∈ S.line p' := by
  have hself : ∀ p', Counterpart s r members c S r' members' p' o → o' ∈ S.line p' := by
    intro p' h
    cases h with
    | known hknown => exact absurd hknown (hs.fresh k o ho)
    | member same =>
      obtain ⟨k', q', q, hq', hq, hp', hp⟩ := same
      obtain rfl := Ty.object.inj hp'
      obtain rfl := Ty.object.inj hp
      obtain rfl := Table.name_unique hs.distinct ho hq
      obtain rfl := Option.some.inj (hq'.symm.trans ho')
      exact (hS.rooted.line p').self_mem
    | declared here there => cases hopen.symm.trans here.body
  induction hline generalizing p' with
  | root last =>
    obtain rfl := List.mem_singleton.1 hmem
    exact hself p' h
  | @link p q l parent _ ih =>
    rcases List.mem_cons.1 hmem with rfl | hmem
    · exact hself p' h
    · rcases h.parent hs hc hS parent with hknown | ⟨q', hq', hcounter⟩
      · exact ih (.known hknown) hmem
      · rw [hS.rooted.line_of_parent hq']
        exact List.mem_cons_of_mem _ (ih hcounter hmem)

omit hs hc in
theorem Solution.variants (n : String) :
    Option.Rel (fun u t => u.variant = t.variant) (r' n) (r n) := by
  refine Option.Rel.mono ?_ (hS.names n)
  rintro u t (⟨_, _, _, _, _, rfl, rfl⟩ | ⟨h, _⟩)
  · rfl
  · exact h

/-- If the set can be built anywhere, then no member is refused here. -/
theorem Solution.resolves {e : String × ObjectDecl} (he : e ∈ types)
    (ho : members.get? e.1 = some o) (hopen : c.body? o = none) {b : Body Ty}
    (hb : e.2.Stands (c.Denotes r) b) : ∃ c', c.resolve o b = .ok c' := by
  obtain ⟨o', b', ho', hbody⟩ := hS.realized e he
  have hproper := TypeExpr.proper_of_stands hS.variants hb hbody.stands hbody.proper
  obtain ⟨parent, hparent⟩ : ∃ parent, c.checkParent o b.parent = .ok parent := by
    cases hp : b.parent with
    | none => exact ⟨none, rfl⟩
    | some t =>
      obtain ⟨p, rfl⟩ := hproper.exists_parent hp
      refine ⟨some p, checkParent_eq_ok_iff.2 ⟨rfl, ?_⟩⟩
      rintro _ ⟨⟩ hmem
      have hparents := parents_of_stands hbody.stands hb
      simp only [hp, Body.asked, Body.withParent] at hparents
      obtain ⟨t, ht, e, hp', hp⟩ := Option.Rel.exists_left hparents
      obtain ⟨p', hq, rfl⟩ := Option.map_eq_some_iff.1 ht
      have hloop := (hS.counterpart hp' hp).mem_line hs hc hS ho ho' hopen
        (hc.built.wellFormed.rooted.line p) hmem
      have hq' : S.parent? o' = some p' := by simp [parent?, hbody.body, hq]
      exact (hS.rooted.line p').not_mem_tail hq' hloop
  exact ⟨_, resolve_eq_ok_iff.2 ⟨parent, hparent, hproper.literal, hopen, rfl⟩⟩

end Counterparts

/-- A member that gets a body for its declaration realizes it, and the others stay as they are. -/
theorem Progress.resolve (hs : Site s r members types) (hc : Progress s r members types c)
    {e : String × ObjectDecl} (he : e ∈ types) (ho : members.get? e.1 = some o) {b : Body Ty}
    (hb : e.2.Stands (TypeExpr.Found r c) b) (hr : c.resolve o b = .ok c') :
    Progress s r members types c' ∧ (∃ b, c'.body? o = some b) ∧
      ∀ q, q ≠ o → c'.body? q = c.body? q := by
  have hgrows := Grows.of_resolve hr
  have hliteral := (proper_of_resolve hr).literal
  have hvalues : ∀ v ∈ e.2.literals, c.HasValue v := fun v hv =>
    (hs.literals e he v (.own hv)).later hc.onward
  obtain ⟨known, distinct⟩ := knows_of_stands hb (fun _ _ ht => ht.1) hvalues
  have hbuilt := hc.built.body known distinct hr
  obtain ⟨parent, hparent, _, hopen, rfl⟩ := resolve_eq_ok_iff.1 hr
  have hbody := body?_setBody_of_knows (hc.knows _ o ho) hopen (b.withParent parent)
  have hothers : ∀ q, q ≠ o → (c.setBody o (b.withParent parent)).body? q = c.body? q :=
    fun q hq => body?_setBody_of_ne hq
  refine ⟨⟨hc.onward.setBody (hs.fresh _ o ho) _, hbuilt, ?_, ?_⟩, ⟨_, hbody⟩, hothers⟩
  · exact fun k q hq => hgrows.knows _ (hc.knows k q hq)
  · intro e' he' q b' hq hb'
    by_cases hqo : q = o
    · subst hqo
      have hkeys : (types.map (·.1)).Nodup := hs.keys ▸ members.nodup
      obtain rfl := List.inj_on_of_nodup_map hkeys he' he (Table.name_unique hs.distinct hq ho)
      obtain rfl := Option.some.inj (hbody.symm.trans hb')
      refine ⟨hbody, ?_, hliteral⟩
      rw [asked_withParent (checkParent_eq_ok_iff.1 hparent).1]
      exact hb.mono fun _ _ _ ht => ht.2.later hgrows
    · rw [hothers q hqo] at hb'
      exact (hc.realized e' he' q b' hq hb').later hgrows

/-- Resolving the declaration of a member gives a body for it, or the set cannot be built at all. -/
theorem Progress.ends_resolveBody (hs : Site s r members types)
    (hc : Progress s r members types c) {e : String × ObjectDecl} (he : e ∈ types) :
    c.Ends (TypeExpr.resolveBody r e.2)
      (fun c' => e.2.Stands (TypeExpr.Found r c'))
      (∀ S r' members', ¬Solution s r members types S r' members') := by
  have hvalues : ∀ x ∈ e.2.parts, ∀ v, x.HasLiteral v → c.HasValue v := fun x hx v hv =>
    (hs.literals e he v (.part hx hv)).later hc.onward
  have hfinds : ∀ (S : Store) (r' : Resolver),
      (∀ n, Option.Rel (fun u t => u.variant = t.variant) (r' n) (r n)) →
      c.Ends _ _ (¬∃ b, e.2.Stands (S.Denotes r') b) := fun S r' hr =>
    TypeExpr.ends_resolveBody TypeExpr.found_later fun x hx =>
      TypeExpr.finds hr (fun _ _ => hc.names hs) (hvalues x hx)
  by_cases hsome : ∃ S r' members', Solution s r members types S r' members'
  · obtain ⟨S, r', members', hS⟩ := hsome
    refine (hfinds S r' hS.variants).imp_failure fun hnone => ?_
    obtain ⟨o', b', _, hbody⟩ := hS.realized e he
    exact absurd ⟨_, hbody.stands⟩ hnone
  · have hself : ∀ n, Option.Rel (fun u t => Ty.variant u = Ty.variant t) (r n) (r n) :=
      fun n => Option.Rel.refl (fun t => Eq.refl t.variant) (r n)
    refine (hfinds c r hself).imp_failure fun _ S r' members' hS => ?_
    exact hsome ⟨S, r', members', hS⟩

/-- One member gets its body, or else the set cannot be built at all. -/
theorem Progress.step (hs : Site s r members types) (hc : Progress s r members types c)
    {e : String × ObjectDecl} (he : e ∈ types) (ho : members.get? e.1 = some o)
    (hopen : c.body? o = none) :
    (∃ c', (TypeExpr.resolveBody r e.2 >>= Building.resolve o) c = .ok () c' ∧
      Progress s r members types c' ∧ c.Grows c' ∧ (∃ b, c'.body? o = some b) ∧
      ∀ k q, members.get? k = some q → q ≠ o → c'.body? q = c.body? q) ∨
    (∃ e' c', (TypeExpr.resolveBody r e.2 >>= Building.resolve o) c = .error e' c' ∧
      c.Grows c' ∧ c'.Built) ∧ ∀ S r' members', ¬Solution s r members types S r' members' := by
  have hfirst := hc.ends_resolveBody hs he c (.refl c) hc.built
  cases hbody : TypeExpr.resolveBody r e.2 c with
  | error err c₁ =>
    rw [hbody] at hfirst
    obtain ⟨hext, hbuilt, hnone⟩ := hfirst
    exact .inr ⟨⟨err, c₁, bind_of_error hbody, hext.grows, hbuilt⟩, hnone⟩
  | ok b c₁ =>
    rw [hbody] at hfirst
    obtain ⟨hext, hbuilt, hb⟩ := hfirst
    have hc₁ := hc.later hext hbuilt
    have hkept : ∀ k q, members.get? k = some q → c₁.body? q = c.body? q :=
      fun k q hq => hext.body q (hc.knows k q hq)
    rw [bind_of_ok hbody, run_resolve]
    cases hr : c₁.resolve o b with
    | error err =>
      refine .inr ⟨⟨err, c₁, rfl, hext.grows, hbuilt⟩, fun S r' members' hS => ?_⟩
      obtain ⟨c₂, hok⟩ := hS.resolves hs hc₁ he ho ((hkept _ o ho).trans hopen)
        (hb.mono fun _ _ _ ht => ht.2)
      cases hr.symm.trans hok
    | ok c₂ =>
      obtain ⟨hc₂, hnew, hothers⟩ := hc₁.resolve hs he ho hb hr
      exact .inl ⟨c₂, rfl, hc₂, hext.grows.trans (.of_resolve hr), hnew,
        fun k q hq hne => (hothers q hne).trans (hkept k q hq)⟩

theorem resolveMembers_cons {e : String × ObjectDecl} (ho : members.get? e.1 = some o) :
    Building.resolveMembers r members (e :: rest) =
      (TypeExpr.resolveBody r e.2 >>= Building.resolve o) >>= fun _ =>
        Building.resolveMembers r members rest := by
  simp only [Building.resolveMembers, ho, bind_assoc]

/-- The members that are left all get their bodies, or else the set cannot be built at all. -/
theorem Progress.resolveMembers (hs : Site s r members types) (hc : Progress s r members types c)
    (hsub : rest ⊆ types) (hnodup : (rest.map (·.1)).Nodup)
    (hopen : ∀ e ∈ rest, ∀ o, members.get? e.1 = some o → c.body? o = none) :
    (∃ c', Building.resolveMembers r members rest c = .ok () c' ∧
      Progress s r members types c' ∧ c.Grows c' ∧
      ∀ e ∈ rest, ∀ o, members.get? e.1 = some o → ∃ b, c'.body? o = some b) ∨
    (∃ e c', Building.resolveMembers r members rest c = .error e c' ∧ c.Grows c' ∧ c'.Built) ∧
      ∀ S r' members', ¬Solution s r members types S r' members' := by
  induction rest generalizing c with
  | nil => exact .inl ⟨c, rfl, hc, .refl c, by simp⟩
  | cons e rest ih =>
    have he : e ∈ types := hsub List.mem_cons_self
    obtain ⟨hnot, hnodup⟩ := List.nodup_cons.1 hnodup
    obtain ⟨o, ho⟩ := hs.exists_member he
    rw [resolveMembers_cons ho]
    rcases hc.step hs he ho (hopen e List.mem_cons_self o ho) with
      ⟨c₁, hrun, hc₁, hgrows, ⟨b, hb⟩, hothers⟩ | ⟨⟨err, c₁, hrun, herror⟩, hnone⟩
    · have hopen₁ : ∀ e' ∈ rest, ∀ q, members.get? e'.1 = some q → c₁.body? q = none := by
        intro e' he' q hq
        rw [hothers _ q hq ?_]
        · exact hopen e' (List.mem_cons_of_mem _ he') q hq
        · rintro rfl
          exact hnot (List.mem_map.2 ⟨e', he', Table.name_unique hs.distinct hq ho⟩)
      rw [bind_of_ok hrun]
      refine (ih hc₁ (fun _ h => hsub (List.mem_cons_of_mem _ h)) hnodup hopen₁).imp ?_
        (And.imp_left fun ⟨err, c', hrest, hgrows', hb'⟩ =>
          ⟨err, c', hrest, hgrows.trans hgrows', hb'⟩)
      rintro ⟨c', hrest, hc', hgrows', hbodies⟩
      refine ⟨c', hrest, hc', hgrows.trans hgrows', fun e' he' q hq => ?_⟩
      rcases List.mem_cons.1 he' with rfl | he'
      · obtain rfl := Option.some.inj (ho.symm.trans hq)
        exact ⟨b, hgrows'.body _ _ hb⟩
      · exact hbodies e' he' q hq
    · exact .inr ⟨⟨err, c₁, bind_of_error hrun, herror⟩, hnone⟩

end Members
end Store
end TypeLattice
