import ArenaScheme.Proofs.Making

/-! Pairs that little leads to. A pair that was just made is alone: neither a record nor a root
leads to it. When such pairs are consed together or put into slots one by one, each of them can
still be reached in one way only. -/

namespace ArenaScheme

open Memory Heap

variable {h : Heap} {base count i r tail : Nat}

namespace Heap

variable {rules : Rules} {h k g : Heap} {r a c lo hi : Nat} {kept : Nat → Prop} {place : Nat → Nat}
  {kind : Kind} {words : List Nat} {bytes : List UInt8} {size : Nat} {m : Memory}

/-- No record leads to `r`. -/
def Unshared (h : Heap) (r : Nat) : Prop :=
  ∀ q ∈ h.records, ∀ k ∈ h.memory.referenceFields q, h.memory.field q k ≠ r

/-- If there is a pair at `r`, neither a record nor a root leads to it. -/
def Alone (h : Heap) (r : Nat) : Prop :=
  h.memory.kind r = .pair → h.Unshared r ∧ r ∉ h.roots

/-- The pairs in the slots from `lo` up to `hi` can be reached through their slots only. -/
def Loose (h : Heap) (lo hi : Nat) : Prop :=
  ∀ i, lo ≤ i → i < hi → i < h.roots.size → h.memory.kind (h.root i) = .pair →
    h.Unshared (h.root i) ∧ ∀ j < h.roots.size, j ≠ i → h.root j ≠ h.root i

theorem alone_of_kind (hk : h.memory.kind r ≠ .pair) : h.Alone r := fun hpair => absurd hpair hk

theorem Alone.root_ne (ha : h.Alone r) (hi : i < h.roots.size)
    (hpair : h.memory.kind (h.root i) = .pair) : h.root i ≠ r := by
  rintro rfl
  exact (ha hpair).2 (root_mem hi)

/-- References to where a record has moved come from references to that record. -/
theorem Unshared.relocate (hu : h.Unshared r) (hr : h.Relocation kept place k) (hkept : kept r) :
    k.Unshared (place r) := by
  intro q hq i hi heq
  obtain ⟨q, hq', rfl⟩ := (hr.records q).mp hq
  rw [(hr.record q hq').referenceFields] at hi
  rcases (hr.record q hq').reference i hi with ⟨-, habs⟩ | ⟨hkept', heq'⟩
  · exact hr.wellFormed.ne_absent (hr.mem_records hkept) (heq.symm.trans habs)
  · exact hu q (hr.mem q hq') i hi (hr.injective hkept' hkept (heq'.trans heq))

theorem Unshared.pushed (hu : h.Unshared r) (hm : h.Pushed rules kind words bytes size m)
    (wf : h.WellFormed) (hnew : ∀ i ∈ m.referenceFields h.top, m.field h.top i ≠ r) :
    { h with memory := m, top := h.top + size }.Unshared r := by
  intro q hq i hi
  rw [hm.records wf] at hq
  rcases List.mem_append.mp hq with hq | hq
  · have hbody := hm.sameBody wf hq
    have hi' : i ∈ h.memory.referenceFields q := hbody.referenceFields ▸ hi
    change m.field q i ≠ r
    rw [hbody.reference hi']
    exact hu q hq i hi'
  · obtain rfl := List.mem_singleton.mp hq
    exact hnew i hi

theorem Alone.relocate (ha : h.Alone r) (hr : h.Relocation kept place k) (hkept : kept r) :
    k.Alone (place r) := by
  intro hpair
  obtain ⟨hu, hroot⟩ := ha ((hr.record r hkept).kind.symm.trans hpair)
  refine ⟨hu.relocate hr hkept, fun hmem => hroot ?_⟩
  rw [hr.roots, Array.mem_map] at hmem
  obtain ⟨q, hq, heq⟩ := hmem
  exact hr.injective (hr.root q hq) hkept heq ▸ hq

theorem Loose.relocate (hl : h.Loose lo hi) (hr : h.Relocation kept place k) : k.Loose lo hi := by
  intro i hlo hhi hlt hpair
  have hsize : k.roots.size = h.roots.size := by rw [hr.roots, Array.size_map]
  rw [hsize] at hlt
  have hkept := hr.root _ (root_mem hlt)
  rw [hr.root_eq hlt] at hpair ⊢
  obtain ⟨hu, hne⟩ := hl i hlo hhi hlt ((hr.record _ hkept).kind.symm.trans hpair)
  refine ⟨hu.relocate hr hkept, fun j hj hji heq => ?_⟩
  rw [hsize] at hj
  rw [hr.root_eq hj] at heq
  exact hne j hj hji (hr.injective (hr.root _ (root_mem hj)) hkept heq)

theorem Loose.pushed (hl : h.Loose lo hi) (hm : h.Pushed rules kind words bytes size m)
    (hs : h.Sound rules)
    (hnew : ∀ i, lo ≤ i → i < hi → i < h.roots.size → h.memory.kind (h.root i) = .pair →
      ∀ l ∈ m.referenceFields h.top, m.field h.top l ≠ h.root i) :
    { h with memory := m, top := h.top + size }.Loose lo hi := by
  intro i hlo hhi hlt hpair
  have hmem := hs.wf.root _ (root_mem hlt)
  have hpair' : h.memory.kind (h.root i) = .pair := (hm.sameBody hs.wf hmem).kind.symm.trans hpair
  obtain ⟨hu, hne⟩ := hl i hlo hhi hlt hpair'
  exact ⟨hu.pushed hm hs.wf (hnew i hlo hhi hlt hpair'), hne⟩

theorem Loose.mono {lo' hi' : Nat} (hl : h.Loose lo hi) (hlo : lo ≤ lo') (hhi : hi' ≤ hi) :
    h.Loose lo' hi' :=
  fun i hi hi' => hl i (Nat.le_trans hlo hi) (Nat.lt_of_lt_of_le hi' hhi)

/-- A value that is alone may be put into a slot. -/
theorem Loose.push (hl : h.Loose lo hi) (ha : h.Alone r) :
    { h with roots := h.roots.push r }.Loose lo hi := by
  have hroot : ∀ i, { h with roots := h.roots.push r }.root i =
      if i = h.roots.size then r else h.root i := fun i => by
    simp only [Heap.root, Array.getElem?_push]
    split <;> rfl
  intro i hlo hhi hlt hpair
  simp only [Array.size_push] at hlt
  rw [hroot] at hpair ⊢
  by_cases hi : i = h.roots.size
  · rw [if_pos hi] at hpair ⊢
    obtain ⟨hu, hout⟩ := ha hpair
    refine ⟨hu, fun j hj hji heq => hout ?_⟩
    simp only [Array.size_push] at hj
    rw [hroot, if_neg (by omega)] at heq
    exact heq ▸ root_mem (by omega)
  · rw [if_neg hi] at hpair ⊢
    obtain ⟨hu, hne⟩ := hl i hlo hhi (by omega) hpair
    refine ⟨hu, fun j hj hji => ?_⟩
    simp only [Array.size_push] at hj
    rw [hroot]
    split
    · rintro rfl
      exact (ha hpair).2 (root_mem (by omega))
    · exact hne j (by omega) hji

theorem Unshared.setField {x l t : Nat} (hu : h.Unshared r) (hs : h.Sound rules)
    (hm : FieldSet h.records h.memory x l t m) (hne : t ≠ r) :
    { h with memory := m }.Unshared r := by
  intro q hq i hi
  rw [hs.records_setField hm] at hq
  change i ∈ m.referenceFields q at hi
  rw [hm.references q hq] at hi
  by_cases hin : q = x ∧ i = l
  · obtain ⟨rfl, rfl⟩ := hin
    exact hm.self ▸ hne
  · change m.field q i ≠ r
    rw [hm.field hq (fun h1 h2 => hin ⟨h1, h2⟩) (field_end_le_extent hi)]
    exact hu q hq i hi

/-- A new symbol has no use for pairs. -/
theorem Loose.symbolAdded {name : List UInt8} (hl : h.Loose lo hi) (hs : h.Sound rules)
    (ha : h.SymbolAdded rules name g) : g.Loose lo hi := by
  obtain ⟨digest, m, hm, hhung⟩ := ha.added
  have hlt : ∀ i < h.roots.size, h.root i < h.top := fun i hi =>
    hs.wf.lt_top (hs.wf.root _ (root_mem hi))
  have hne : h.top ≠ absent := Nat.ne_of_lt (Nat.lt_of_lt_of_le
    (Nat.lt_of_lt_of_le (by unfold symbolSize fieldsSize; omega) hm.fit) hs.wf.capacity_le)
  have hpushed : { h with memory := m, top := h.top + symbolSize name.length }.Loose lo hi := by
    refine hl.pushed hm hs fun i _ _ hi _ l hl' heq => ?_
    rcases hm.allowed l hl' with ⟨habs, -⟩ | ⟨-, hfits⟩
    · exact hs.wf.ne_absent (hs.wf.root _ (root_mem hi)) (heq.symm.trans habs)
    · exact absurd (heq ▸ hfits.2) (Nat.not_lt_of_gt (hlt i hi))
  cases hhung with
  | first _ => exact hpushed
  | below _ hset =>
    intro i hlo hhi hlt' hpair
    have hsound := hm.sound hs
    have hmem := hsound.wf.root _ (root_mem hlt')
    obtain ⟨hu, hdistinct⟩ := hpushed i hlo hhi hlt' ((hset.kind hmem).symm.trans hpair)
    exact ⟨hu.setField hsound hset (Nat.ne_of_gt (hlt i hlt')), hdistinct⟩

theorem mem_shrink {roots : Array Ref} (hr : r ∈ roots.shrink count) :
    ∃ j < count, roots[j]? = some r := by
  obtain ⟨j, hget⟩ := Array.mem_iff_getElem?.mp hr
  rw [Corr.getElem?_shrink] at hget
  split at hget
  · exact ⟨j, by assumption, hget⟩
  · cases hget

theorem root_shrink (h : Heap) (hi : i < count) :
    { h with roots := h.roots.shrink count }.root i = h.root i := by
  simp only [Heap.root, Corr.getElem?_shrink, if_pos hi]

theorem Loose.release (hl : h.Loose lo hi) (count : Nat) :
    { h with roots := h.roots.shrink count }.Loose lo hi := by
  intro i hlo hhi hlt hpair
  simp only [Array.size_shrink] at hlt
  rw [root_shrink h (by omega)] at hpair ⊢
  obtain ⟨hu, hne⟩ := hl i hlo hhi (by omega) hpair
  refine ⟨hu, fun j hj => ?_⟩
  simp only [Array.size_shrink] at hj
  rw [root_shrink h (by omega)]
  exact hne j (by omega)

/-- What stood in a released slot is alone. -/
theorem Loose.alone_release (hl : h.Loose lo hi) (hlo : lo ≤ i) (hhi : i < hi)
    (hlt : i < h.roots.size) (hcount : count ≤ i) :
    { h with roots := h.roots.shrink count }.Alone (h.root i) := by
  intro hpair
  obtain ⟨hu, hne⟩ := hl i hlo hhi hlt hpair
  refine ⟨hu, fun hmem => ?_⟩
  obtain ⟨j, hj, hget⟩ := mem_shrink hmem
  refine hne j (Array.getElem?_eq_some_iff.mp hget).1 (by omega) ?_
  rw [Heap.root, hget]
  rfl

end Heap

/-- A pair that was just made, and the pair in its second field if there is one: no record and no
root leads to them from elsewhere. -/
structure Solitary (h : Heap) (r : Nat) : Prop where
  unshared : h.Unshared r
  root : r ∉ h.roots
  only : h.memory.kind (h.memory.field r 1) = .pair →
    ∀ q ∈ h.records, ∀ k ∈ h.memory.referenceFields q,
      h.memory.field q k = h.memory.field r 1 → q = r
  cell : h.memory.kind (h.memory.field r 1) = .pair → h.memory.field r 1 ∉ h.roots

theorem Solitary.release (hr : Solitary h r) (count : Nat) :
    Solitary { h with roots := h.roots.shrink count } r := by
  have hroots : ∀ q ∉ h.roots, q ∉ h.roots.shrink count := fun q hq hmem => by
    obtain ⟨j, -, hget⟩ := mem_shrink hmem
    exact hq (Array.mem_of_getElem? hget)
  exact ⟨hr.unshared, hroots r hr.root, hr.only, fun hpair => hroots _ (hr.cell hpair)⟩

theorem Solitary.alone (hr : Solitary h r) : h.Alone r := fun _ =>
  ⟨hr.unshared, hr.root⟩

namespace HeapM

variable {rules : Rules} {h g : Heap} {r a c lo hi : Nat}

section

variable (hs : h.Sound rules) (ha : a ∈ h.records) (hc : c ∈ h.records)
include hs ha hc

/-- What a new pair leads to. -/
theorem cons_made (hrun : cons a c h = .ok r g) :
    ∃ kept place k m, h.Relocation kept place k ∧ kept a ∧ kept c ∧
      k.Pushed rules .pair [place a, place c] [] (fieldsSize 2) m ∧ r = k.top ∧
      g = { k with memory := m, top := k.top + fieldsSize 2 } ∧
      m.field k.top 0 = place a ∧ m.field k.top 1 = place c := by
  have hmakes := makes_cons hs ha hc
  rw [hrun] at hmakes
  cases hmakes with
  | @ok kept place k m hr hkept hm =>
    have hlt : ∀ x, kept x → place x < 4294967296 := fun x hx =>
      Nat.lt_trans (hr.wellFormed.lt_top (hr.mem_records hx)) hr.wellFormed.top_lt
    have ha' := hkept a (by simp)
    have hc' := hkept c (by simp)
    exact ⟨kept, place, k, m, hr, ha', hc', hm, rfl, rfl, hm.written.word rfl (hlt a ha'),
      hm.written.word rfl (hlt c hc')⟩

theorem cons_solitary (halone : h.Alone c) (hrun : cons a c h = .ok r g) : Solitary g r := by
  obtain ⟨kept, place, k, m, hr, -, hkept, hm, rfl, rfl, -, hcdr⟩ := cons_made hs ha hc hrun
  have hk := hs.relocate hr
  have hfresh := hm.fresh hk
  have hmem := hr.mem_records hkept
  have halone' : m.kind (m.field k.top 1) = .pair → k.Unshared (place c) ∧ place c ∉ k.roots :=
    fun hpair => halone.relocate hr hkept (by
      rw [hcdr, (hm.sameBody hk.wf hmem).kind] at hpair
      exact hpair)
  refine ⟨hfresh.unshared, fun hroot => hfresh.roots _ hroot rfl, fun hpair q hq i hi heq => ?_,
    fun hpair => ?_⟩
  · rw [hm.records hk.wf] at hq
    rcases List.mem_append.mp hq with hq | hq
    · have hbody := hm.sameBody hk.wf hq
      have hi' : i ∈ k.memory.referenceFields q := hbody.referenceFields ▸ hi
      refine absurd ?_ ((halone' hpair).1 q hq i hi')
      rw [← hbody.reference hi', ← hcdr]
      exact heq
    · exact List.mem_singleton.mp hq
  · have hout := (halone' hpair).2
    rw [← hcdr] at hout
    exact hout

theorem cons_loose (hl : h.Loose lo hi)
    (hne : ∀ i, lo ≤ i → i < hi → i < h.roots.size → h.memory.kind (h.root i) = .pair →
      h.root i ≠ a ∧ h.root i ≠ c) (hrun : cons a c h = .ok r g) : g.Loose lo hi := by
  obtain ⟨kept, place, k, m, hr, hkept, hkept', hm, rfl, rfl, hcar, hcdr⟩ := cons_made hs ha hc hrun
  refine (hl.relocate hr).pushed hm (hs.relocate hr) fun i hlo hhi hlt hpair l hl' => ?_
  have hsize : k.roots.size = h.roots.size := by rw [hr.roots, Array.size_map]
  rw [hsize] at hlt
  have hroot := hr.root _ (root_mem hlt)
  rw [hr.root_eq hlt] at hpair ⊢
  obtain ⟨h1, h2⟩ := hne i hlo hhi hlt ((hr.record _ hroot).kind.symm.trans hpair)
  rw [pair_references hm.written.kind, List.mem_cons, List.mem_singleton] at hl'
  rcases hl' with rfl | rfl
  · rw [hcar]
    exact fun heq => h1 (hr.injective hkept hroot heq).symm
  · rw [hcdr]
    exact fun heq => h2 (hr.injective hkept' hroot heq).symm

theorem cons_keeps (hrun : cons a c h = .ok r g) :
    g.Sound rules ∧ r ∈ g.records ∧ g.memory.kind r = .pair ∧ g.roots.size = h.roots.size := by
  obtain ⟨kept, place, k, m, hr, -, -, hm, rfl, rfl, -, -⟩ := cons_made hs ha hc hrun
  have hk := hs.relocate hr
  refine ⟨hm.sound hk, ?_, hm.written.kind, ?_⟩
  · rw [hm.records hk.wf]
    exact List.mem_append_right _ (.head _)
  · change k.roots.size = _
    rw [hr.roots, Array.size_map]

end

section

variable (hs : h.Sound rules)
include hs

/-- While slots are consed into a list, the slots before them stay loose and the list is alone. -/
theorem listOnto_owned {start : Nat} (htail : tail ∈ h.records)
    (hcount : start + count ≤ h.roots.size) (hl : h.Loose lo start) (halone : h.Alone tail)
    (hrun : listOnto start count tail h = .ok r g) :
    g.Sound rules ∧ g.roots.size = h.roots.size ∧ g.Loose lo start ∧ g.Alone r ∧
      (Solitary h tail ∨ 0 < count → Solitary g r) := by
  induction count generalizing h tail with
  | zero =>
    cases hrun
    exact ⟨hs, rfl, hl, halone, fun hsolitary => hsolitary.resolve_right (Nat.lt_irrefl 0)⟩
  | succ count ih =>
    have hlt : start + count < h.roots.size := by omega
    have hslot := hs.wf.root _ (root_mem hlt)
    change (cons (h.root (start + count)) tail >>= listOnto start count) h = .ok r g at hrun
    cases hcons : cons (h.root (start + count)) tail h with
    | error fault k =>
      simp only [bind, EStateM.bind, hcons] at hrun
      cases hrun
    | ok list k =>
      rw [bind_ok hcons] at hrun
      obtain ⟨hk, hmem, -, hsize⟩ := cons_keeps hs hslot htail hcons
      have hsolitary := cons_solitary hs hslot htail halone hcons
      have hloose : k.Loose lo start := cons_loose hs hslot htail hl
        (fun i hlo hhi hi hpair => ⟨((hl i hlo hhi hi hpair).2 _ hlt (by omega)).symm, fun heq =>
          (halone (heq ▸ hpair)).2 (heq ▸ root_mem hi)⟩) hcons
      obtain ⟨hg, hsize', hrest⟩ := ih hk hmem (by omega) hloose hsolitary.alone hrun
      exact ⟨hg, hsize'.trans hsize, hrest.1, hrest.2.1, fun _ => hrest.2.2 (Or.inl hsolitary)⟩

/-- A pair of values that are alone. -/
theorem cons_owned (ha : a ∈ h.records) (hc : c ∈ h.records) (hl : h.Loose lo hi)
    (halone : h.Alone a) (halone' : h.Alone c) (hrun : cons a c h = .ok r g) :
    g.Loose lo hi ∧ Solitary g r :=
  ⟨cons_loose hs ha hc hl (fun _ _ _ hi hpair => ⟨halone.root_ne hi hpair, halone'.root_ne hi hpair⟩)
    hrun, cons_solitary hs ha hc halone' hrun⟩

theorem listFromRoots_owned (htail : tail ∈ h.records) (hbase : base ≤ h.roots.size)
    (hl : h.Loose lo base) (halone : h.Alone tail)
    (hsome : h.memory.kind tail = .pair → base < h.roots.size)
    (hrun : listFromRoots base tail h = .ok r g) :
    g.Loose lo base ∧ (g.memory.kind r = .pair → Solitary g r) := by
  change (listOnto base (h.roots.size - base) tail >>= fun list =>
    releaseRoots base >>= fun _ => pure list) h = .ok r g at hrun
  cases hlist : listOnto base (h.roots.size - base) tail h with
  | error fault k =>
    simp only [bind, EStateM.bind, hlist] at hrun
    cases hrun
  | ok list k =>
    rw [bind_ok hlist] at hrun
    cases hrun
    obtain ⟨-, -, hloose, -, hsolitary⟩ :=
      listOnto_owned hs htail (by omega) hl halone hlist
    refine ⟨hloose.release base, fun hpair => (hsolitary (Or.inr ?_)).release base⟩
    by_cases hcount : h.roots.size - base = 0
    · rw [hcount] at hlist
      cases hlist
      have := hsome hpair
      omega
    · omega

theorem vectorFromRoots_loose (hl : h.Loose lo base) (hrun : vectorFromRoots base h = .ok r g) :
    g.Loose lo base := by
  have hgathers := gathers hs base
  rw [hrun] at hgathers
  cases hgathers with
  | @ok kept place k m hr hm =>
    have hk := hs.relocate hr
    have hloose := hl.relocate hr
    refine Loose.release (hloose.pushed hm hk fun i hlo hhi hi hpair l hl' => ?_) base
    -- Field `l` holds the value of slot `base + l - 1`.
    have hsize : k.roots.size = h.roots.size := by rw [hr.roots, Array.size_map]
    have hlength : m.field k.top 0 = h.roots.size - base :=
      hm.written.word rfl (by
        have := hm.fit
        have := hk.wf.top_lt
        have := hk.wf.capacity_le
        unfold sequenceSize fieldsSize maxSize at *
        omega)
    rw [referenceFields, hm.written.kind] at hl'
    simp only [hlength, List.mem_range'_1] at hl'
    obtain ⟨j, rfl⟩ : ∃ j, l = j + 1 := ⟨l - 1, by omega⟩
    have hj : base + j < k.roots.size := by omega
    have hslot := hk.wf.root _ (root_mem hj)
    have hfield : m.field k.top (j + 1) = k.root (base + j) := by
      refine hm.written.word ?_ (Nat.lt_trans (hk.wf.lt_top hslot) hk.wf.top_lt)
      rw [List.getElem?_cons_succ, Array.getElem?_toList, Array.getElem?_extract,
        if_pos (by omega), Heap.root, Array.getElem?_eq_getElem hj]
      rfl
    rw [hfield]
    exact (hloose i hlo hhi hi hpair).2 (base + j) hj (by omega)

/-- Records without references have no use for pairs. -/
theorem makes_loose {kind : Kind} {words : (Nat → Nat) → List Nat} {bytes : List UInt8} {size : Nat}
    (hl : h.Loose lo hi) (hplain : ∀ (m : Memory) r, m.kind r = kind → m.referenceFields r = [])
    (hmakes : h.Makes rules [] kind words bytes size (.ok r g)) : g.Loose lo hi := by
  cases hmakes with
  | ok hr _ hm =>
    refine (hl.relocate hr).pushed hm (hs.relocate hr) fun i _ _ _ _ l hl' => ?_
    rw [hplain _ _ hm.written.kind] at hl'
    cases hl'

theorem internWith_loose {digest : List UInt8 → Nat} {name : String} (hl : h.Loose lo hi)
    (hrun : internWith digest name h = .ok r g) : g.Loose lo hi := by
  have hinterns := interns hs digest name
  rw [hrun] at hinterns
  cases hinterns with
  | found _ => exact hl
  | added _ hr hadded _ => exact (hl.relocate hr).symbolAdded (hs.relocate hr) hadded

end

end HeapM

end ArenaScheme
