import ArenaScheme.Proofs.Contents

/-! Operations on the heap are operations on the store it stands for. A constructor adds one object
with the contents it was given, at a position that is new, and an update changes one field of one
object. The records that can be reached may move, and stay what they are otherwise. -/

namespace ArenaScheme

open Memory Heap

namespace Heap

/-- Whether a record can be reached from what the heap keeps and from `refs`. -/
def Reaches (h : Heap) (refs : List Ref) (r : Ref) : Prop :=
  { h with roots := h.roots ++ refs.toArray }.Live r

/-- The store of `g` is the store of `h` with the objects `news` added. Whatever can be reached from
`h` and from `refs` is kept and has moved to where `place` says, the first `height` roots are left,
and no record of `g` is anything else. -/
structure Extends (h : Heap) (refs : List Ref) (height : Nat) (kept : Ref → Prop)
    (place : Ref → Ref) (news : List (Ref × Content)) (g : Heap) : Prop where
  wellFormed : g.WellFormed
  reached : ∀ p, h.Reaches refs p → kept p
  mem : ∀ p, kept p → p ∈ h.records
  absent : place absent = absent
  increasing : ∀ p q, kept p → kept q → p < q → place p < place q
  old : ∀ p, kept p → g.store (place p) = some ((h.content p).map place)
  pinned : ∀ p, kept p → g.memory.isPinned (place p) = h.memory.isPinned p
  new : ∀ n ∈ news, g.store n.1 = some n.2
  fresh : ∀ n ∈ news, ∀ p, kept p → place p < n.1
  newest_first : news.Pairwise fun m n => n.1 < m.1
  only : ∀ q ∈ g.records, (∃ p, kept p ∧ place p = q) ∨ ∃ n ∈ news, n.1 = q
  roots : g.roots = (h.roots.extract 0 height).map place
  symbols : g.symbols = place h.symbols

/-- The store of `g` is the store of `h` with `c` at `r`. -/
structure Updates (h : Heap) (r : Ref) (c : Content) (g : Heap) : Prop where
  wellFormed : g.WellFormed
  changed : g.store r = some c
  others : ∀ p, p ≠ r → g.store p = h.store p
  pinned : ∀ p ∈ h.records, g.memory.isPinned p = h.memory.isPinned p
  roots : g.roots = h.roots
  symbols : g.symbols = h.symbols

/-- A well-formed heap that is not empty. -/
structure Filled (h : Heap) : Prop extends WellFormed h where
  nonempty : 0 < h.top

/-- Symbols lead to newer symbols only, as those in a search tree do. -/
structure SymbolsOrdered (h : Heap) : Prop where
  table : h.symbols ≠ ArenaScheme.absent → h.memory.kind h.symbols = .symbol
  links : ∀ r ∈ h.records, h.memory.kind r = .symbol → ∀ k ∈ [0, 1],
    h.memory.field r k = ArenaScheme.absent ∨
      r < h.memory.field r k ∧ h.memory.kind (h.memory.field r k) = .symbol

/-- The first record of a heap is the empty list's. -/
theorem Filled.null_mem {h : Heap} (hs : h.Filled) : null ∈ h.records := by
  have htiled := hs.tiled
  cases hrecords : h.records with
  | nil =>
    rw [hrecords, Tiled.nil_iff] at htiled
    exact absurd htiled (Nat.ne_of_lt hs.nonempty)
  | cons r rs =>
    rw [hrecords, Tiled.cons_iff] at htiled
    exact htiled.1 ▸ .head _

section Reaching

variable {h g : Heap} {refs refs' : List Ref} {height : Nat} {kept : Ref → Prop}
  {place : Ref → Ref} {news : List (Ref × Content)} {p : Ref}

theorem Reaches.mono (hp : h.Reaches refs p) (hsub : ∀ r ∈ refs, r ∈ h.roots ∨ r ∈ refs') :
    h.Reaches refs' p := by
  induction hp with
  | root hr =>
    refine .root (Array.mem_append.mpr ?_)
    rcases Array.mem_append.mp hr with hr | hr
    · exact Or.inl hr
    · exact (hsub _ (by simpa using hr)).imp_right fun hr => by simpa using hr
  | symbols hne => exact .symbols hne
  | pinned hr hpin => exact .pinned hr hpin
  | field _ hk hne ih => exact .field ih hk hne

theorem Reaches.reference {t : Ref} (hp : h.Reaches refs p) (ht : t ∈ (h.content p).references)
    (hne : t ≠ ArenaScheme.absent) : h.Reaches refs t := by
  rw [references_content] at ht
  obtain ⟨k, hk, rfl⟩ := List.mem_map.mp ht
  exact .field hp hk hne

theorem Relocation.kept_of_reaches (hr : h.Relocation kept place g) (hrefs : ∀ r ∈ refs, kept r)
    (hp : h.Reaches refs p) : kept p := by
  induction hp with
  | root hmem =>
    rcases Array.mem_append.mp hmem with hmem | hmem
    · exact hr.root _ hmem
    · exact hrefs _ (by simpa using hmem)
  | symbols hne => exact (hr.symbols.resolve_left fun hh => hne hh.1).1
  | pinned hmem hpin => exact hr.pinned _ hmem hpin
  | field _ hk hne ih =>
    exact (((hr.record _ ih).reference _ hk).resolve_left fun hh => hne hh.1).1

theorem Relocation.follow_eq (hr : h.Relocation kept place g) (wf : h.WellFormed) (hp : kept p) :
    follow place p = place p :=
  follow_of_ne (wf.ne_absent (hr.mem p hp))

/-- Moved records have the contents they had, with their references moved. -/
theorem Relocation.content (hr : h.Relocation kept place g) (wf : h.WellFormed) (hp : kept p) :
    g.content (place p) = (h.content p).map (follow place) := by
  refine content_of_matches (hr.record p hp) ?_
  rintro a b (⟨rfl, rfl⟩ | ⟨ha, rfl⟩)
  · exact (follow_absent place).symm
  · exact (hr.follow_eq wf ha).symm

namespace Extends

theorem weaken (he : h.Extends refs height kept place news g)
    (hsub : ∀ r ∈ refs', r ∈ h.roots ∨ r ∈ refs) : h.Extends refs' height kept place news g :=
  { he with reached := fun p hp => he.reached p (hp.mono hsub) }

theorem refl (wf : h.WellFormed) (hrefs : ∀ r ∈ refs, r ∈ h.records) :
    h.Extends refs h.roots.size (· ∈ h.records) id [] h where
  wellFormed := wf
  reached p hp := by
    have hroot : ∀ r ∈ h.roots ++ refs.toArray, r ∈ h.records := by
      intro r hr
      rcases Array.mem_append.mp hr with hr | hr
      · exact wf.root r hr
      · exact hrefs r (by simpa using hr)
    have wfRefs : { h with roots := h.roots ++ refs.toArray }.WellFormed := { wf with root := hroot }
    exact wfRefs.live_mem hp
  mem _ hp := hp
  absent := rfl
  increasing _ _ _ _ hlt := hlt
  old p hp := by rw [Content.map_id, id, store_of_mem hp]
  pinned _ _ := rfl
  new := nofun
  fresh := nofun
  newest_first := .nil
  only q hq := Or.inl ⟨q, hq, rfl⟩
  roots := by rw [Array.extract_size, Array.map_id]
  symbols := rfl

/-- Roots may be released afterwards. -/
theorem release (he : h.Extends refs height kept place news g) {count : Nat}
    (hcount : count ≤ height) :
    h.Extends refs count kept place news { g with roots := g.roots.shrink count } := by
  have hroots : g.roots.shrink count = (h.roots.extract 0 count).map place := by
    rw [he.roots, Array.shrink_eq_take, Array.take, ← Array.map_extract, Array.extract_extract]
    congr 2
    omega
  have hsub : ∀ r ∈ g.roots.shrink count, r ∈ g.records := by
    intro r hr
    refine he.wellFormed.root r ?_
    obtain ⟨i, hi, rfl⟩ := Array.mem_iff_getElem.mp hr
    rw [Array.getElem_shrink]
    exact Array.getElem_mem _
  exact ⟨{ he.wellFormed with root := hsub }, he.reached, he.mem, he.absent, he.increasing, he.old,
    he.pinned, he.new, he.fresh, he.newest_first, he.only, hroots, he.symbols⟩

/-- One extension after the other. What can be reached at first can be reached in between. -/
theorem trans {k : Heap} {middle : List Ref} {height' : Nat} {kept' : Ref → Prop}
    {place' : Ref → Ref} {news' : List (Ref × Content)} (he : h.Extends refs height kept place news k)
    (he' : k.Extends middle height' kept' place' news' g) (hheight : height' ≤ height)
    (hreach : ∀ p, h.Reaches refs p → k.Reaches middle (place p))
    (hnews : ∀ n ∈ news, k.Reaches middle n.1) :
    h.Extends refs height' (fun p => kept p ∧ kept' (place p)) (place' ∘ place)
      (news' ++ news.map fun n => (place' n.1, n.2.map place')) g where
  wellFormed := he'.wellFormed
  reached p hp := ⟨he.reached p hp, he'.reached _ (hreach p hp)⟩
  mem p hp := he.mem p hp.1
  absent := by rw [Function.comp, he.absent, he'.absent]
  increasing p q hp hq hlt := he'.increasing _ _ hp.2 hq.2 (he.increasing p q hp.1 hq.1 hlt)
  old p hp := by
    rw [Function.comp, he'.old _ hp.2, (store_eq_some.mp (he.old p hp.1)).2, Content.map_map]
  pinned p hp := (he'.pinned _ hp.2).trans (he.pinned p hp.1)
  new := by
    intro n hn
    rcases List.mem_append.mp hn with hn | hn
    · exact he'.new n hn
    · obtain ⟨n, hmem, rfl⟩ := List.mem_map.mp hn
      rw [he'.old _ (he'.reached _ (hnews n hmem)), (store_eq_some.mp (he.new n hmem)).2]
  fresh := by
    intro n hn p hp
    rcases List.mem_append.mp hn with hn | hn
    · exact he'.fresh n hn _ hp.2
    · obtain ⟨n, hmem, rfl⟩ := List.mem_map.mp hn
      exact he'.increasing _ _ hp.2 (he'.reached _ (hnews n hmem)) (he.fresh n hmem p hp.1)
  newest_first := by
    refine List.pairwise_append.mpr ⟨he'.newest_first, ?_, ?_⟩
    · refine List.pairwise_map.mpr (he.newest_first.imp_of_mem fun hm hn hlt => ?_)
      exact he'.increasing _ _ (he'.reached _ (hnews _ hn)) (he'.reached _ (hnews _ hm)) hlt
    · intro m hm n hn
      obtain ⟨n, hmem, rfl⟩ := List.mem_map.mp hn
      exact he'.fresh m hm _ (he'.reached _ (hnews n hmem))
  only := by
    intro q hq
    rcases he'.only q hq with ⟨p, hp, rfl⟩ | ⟨n, hn, rfl⟩
    · rcases he.only p (he'.mem p hp) with ⟨p, hp', rfl⟩ | ⟨n, hn, rfl⟩
      · exact Or.inl ⟨p, ⟨hp', hp⟩, rfl⟩
      · exact Or.inr ⟨_, List.mem_append_right _ (List.mem_map_of_mem hn), rfl⟩
    · exact Or.inr ⟨n, List.mem_append_left _ hn, rfl⟩
  roots := by
    rw [he'.roots, he.roots, ← Array.map_extract, Array.extract_extract, Array.map_map]
    congr 2
    omega
  symbols := by rw [he'.symbols, he.symbols, Function.comp]

end Extends

/-- Records move, and one is put on top. -/
theorem Relocation.extends_placed {k : Heap} {kind : Kind} {words : List Nat} {bytes : List UInt8}
    {size : Nat} {m : Memory} (hr : h.Relocation kept place k) (wf : h.WellFormed)
    (hrefs : ∀ r ∈ refs, kept r) (hm : k.Placed kind words bytes size m)
    (hlead : ∀ i ∈ m.referenceFields k.top,
      m.field k.top i = ArenaScheme.absent ∨ m.field k.top i ∈ k.records) :
    h.Extends refs h.roots.size kept (follow place)
      [(k.top, { k with memory := m, top := k.top + size }.content k.top)]
      { k with memory := m, top := k.top + size } := by
  have wfk := hr.wellFormed
  have hrecords := hm.records wfk
  have hmem : ∀ {p}, kept p → place p ∈ { k with memory := m, top := k.top + size }.records :=
    fun hp => by
      rw [hrecords]
      exact List.mem_append_left _ (hr.mem_records hp)
  have hroots : k.roots = (h.roots.extract 0 h.roots.size).map (follow place) := by
    rw [hr.roots, Array.extract_size]
    exact Array.map_congr_left fun r hroot => (hr.follow_eq wf (hr.root r hroot)).symm
  refine ⟨hm.wellFormed wfk hlead, fun p hp => hr.kept_of_reaches hrefs hp, hr.mem,
    follow_absent place, ?_, ?_, ?_, ?_, ?_, List.pairwise_singleton _ _, ?_, hroots, ?_⟩
  · intro p q hp hq hlt
    rw [hr.follow_eq wf hp, hr.follow_eq wf hq]
    exact hr.increasing p q hp hq hlt
  · intro p hp
    have hsame : { k with memory := m, top := k.top + size }.content (place p) = k.content (place p) :=
      content_of_same (.of_sameBody (hm.sameBody wfk (hr.mem_records hp))
        (isPinned_eq_of_byte (hm.byte wfk (hr.mem_records hp))) fun _ _ => Or.inr rfl)
    rw [hr.follow_eq wf hp, store_of_mem (hmem hp), hsame, hr.content wf hp]
  · intro p hp
    rw [hr.follow_eq wf hp]
    exact (isPinned_eq_of_byte (hm.byte wfk (hr.mem_records hp))).trans (hr.record p hp).pinned
  · intro n hn
    obtain rfl := List.mem_singleton.mp hn
    exact store_of_mem (by rw [hrecords]; simp)
  · intro n hn p hp
    obtain rfl := List.mem_singleton.mp hn
    rw [hr.follow_eq wf hp]
    exact wfk.lt_top (hr.mem_records hp)
  · intro q hq
    rw [hrecords] at hq
    rcases List.mem_append.mp hq with hq | hq
    · obtain ⟨p, hp, rfl⟩ := (hr.records q).mp hq
      exact Or.inl ⟨p, hp, hr.follow_eq wf hp⟩
    · exact Or.inr ⟨_, List.mem_singleton_self _, (List.mem_singleton.mp hq).symm⟩
  · rcases hr.symbols with ⟨hleft, hright⟩ | ⟨hp, heq⟩
    · change k.symbols = _
      rw [hleft, hright, follow_absent]
    · exact ((hr.follow_eq wf hp).trans heq).symm

end Reaching

end Heap

end ArenaScheme
