import ArenaScheme.Proofs.Collection.Isomorphism
import ArenaScheme.Proofs.Updates

/-! A collection leaves the live records and nothing else, so that their sizes add up to the new
top. It also leaves the heap compact: every record is live and its forwarding field holds its own
place. Another collection then writes back the bytes that are there already. -/

namespace ArenaScheme

open Memory

namespace Memory

variable {m : Memory} {top r : Nat} {rs : List Nat}

theorem markedBytes_eq_sum (m : Memory) (rs : List Nat) :
    m.markedBytes rs = ((rs.filter m.isMarked).map m.extent).sum := by
  induction rs with
  | nil => rfl
  | cons r rs ih =>
    rw [markedBytes, ih]
    cases hm : m.isMarked r with
    | false => simp [hm]
    | true => simp [hm]

/-- Every byte below the top belongs to a record. -/
theorem Tiled.exists_mem (ht : Tiled m top r rs) {i : Nat} (hlow : r ≤ i) (hlt : i < top) :
    ∃ p ∈ rs, ∃ j < m.extent p, i = p + j := by
  induction ht with
  | done => omega
  | @record r rs _ ih =>
    by_cases hin : i < r + m.extent r
    · exact ⟨r, List.mem_cons_self, i - r, by omega, by omega⟩
    · obtain ⟨p, hp, hj⟩ := ih (by omega)
      exact ⟨p, List.mem_cons_of_mem _ hp, hj⟩

theorem Tiled.markedBytes_eq (ht : Tiled m top r rs) (hall : ∀ p ∈ rs, m.isMarked p = true) :
    r + m.markedBytes rs = top := by
  induction ht with
  | done => rfl
  | @record r rs _ ih =>
    have hrest := ih fun p hp => hall p (List.mem_cons_of_mem _ hp)
    rw [markedBytes, if_pos (hall r List.mem_cons_self)]
    omega

end Memory

namespace Heap

/-- A heap as a collection leaves it. -/
structure Compact (h : Heap) : Prop where
  wf : h.WellFormed
  live : ∀ r ∈ h.records, h.Live r
  forward : ∀ r ∈ h.records, h.memory.forward r = r

open Classical in
/-- The records that a collection keeps. -/
noncomputable def liveRecords (h : Heap) : List Ref := h.records.filter fun r => decide (h.Live r)

/-- What was live is live where it went. -/
theorem Relocation.live {h g : Heap} {place : Nat → Nat} (hr : h.Relocation h.Live place g)
    {p : Nat} (hp : h.Live p) : g.Live (place p) := by
  induction hp with
  | @root r hroot =>
    refine .root ?_
    rw [hr.roots]
    exact Array.mem_map_of_mem hroot
  | symbols hne =>
    obtain ⟨habs, -⟩ | ⟨hlive, hplace⟩ := hr.symbols
    · exact absurd habs hne
    · have hmem := (hr.records _).mpr ⟨_, hlive, hplace⟩
      rw [hplace]
      exact .symbols (hr.wellFormed.ne_absent hmem)
  | @pinned r hmem hpin =>
    have hlive : h.Live r := .pinned hmem hpin
    refine .pinned ((hr.records _).mpr ⟨r, hlive, rfl⟩) ?_
    rw [(hr.record r hlive).pinned, hpin]
  | @field r k hlive hk hne ih =>
    have hmatch := hr.record r hlive
    obtain ⟨habs, -⟩ | ⟨hgoes, hplace⟩ := hmatch.reference k hk
    · exact absurd habs hne
    · have hmem := (hr.records _).mpr ⟨_, hgoes, hplace⟩
      rw [hplace]
      exact .field ih (hmatch.referenceFields ▸ hk) (hr.wellFormed.ne_absent hmem)

end Heap

namespace HeapM

open Heap

variable {h g : Heap} {m o : Memory}

namespace Collected

/-- The new top is the size of all that is live. -/
theorem top_eq_sum (hc : Collected h m o g) (wf : h.WellFormed) :
    g.top = (h.liveRecords.map h.memory.recordSize).sum := by
  have hfilter : h.records.filter m.isMarked = h.liveRecords := by
    classical
    refine List.filter_congr fun r hr => ?_
    rw [Bool.eq_iff_iff, hc.live r hr, decide_eq_true_iff]
  have hsize : ∀ r ∈ h.liveRecords, m.extent r = h.memory.recordSize r := by
    intro r hr
    have hmem : r ∈ h.records := (List.mem_filter.mp hr).1
    have hend := (wf.tiled.bounds hmem).2
    have htop := wf.top_lt
    rw [(hc.sameBody wf hmem).extent, recordSize_eq _ _ (by omega)]
  rw [hc.top, markedBytes_eq_sum, hfilter, List.map_congr_left hsize]

theorem compact (hc : Collected h m o g) (wf : h.WellFormed) : g.Compact := by
  have hr := (hc.relocation wf).1
  refine ⟨hr.wellFormed, fun s hs => ?_, fun s hs => ?_⟩
  all_goals obtain ⟨p, hp, rfl⟩ := (hr.records s).mp hs
  · exact hr.live hp
  · have hmem := wf.live_mem hp
    have hm := (hc.live p hmem).mpr hp
    obtain ⟨-, -, hbytes⟩ := hc.relocated.byte_slide (hc.tiled wf) wf.top_lt (hc.top_le_size wf)
    have hin : p < o.size := by
      have hlt := wf.lt_top hmem
      have hle := hc.top_le_size wf
      rw [hc.relocated.size]
      omega
    have hforward : g.memory.forward (m.placeIn h.records p) = o.forward p := by
      refine word_congr fun i hi => ?_
      have hpos := five_le_extent m p
      rw [hc.memory, Nat.add_assoc, hbytes p hmem hm (1 + i) (by omega),
        (byte_unmark o hin (by omega)).2, Nat.add_assoc]
    rw [hforward, hc.relocated.forward p hmem hm]

/-- Where everything is live, nothing moves. -/
theorem place_eq (hc : Collected h m o g) (hh : h.Compact) {p : Nat} (hp : p ∈ h.records) :
    m.placeIn h.records p = p := by
  have hall : ∀ q ∈ h.records, q < p → m.isMarked q = true := fun q hq _ =>
    (hc.live q hq).mpr (hh.live q hq)
  have heq := (hc.tiled hh.wf).placeIn_eq hp hall
  omega

/-- The bytes of a record of a compact heap are what they were. -/
theorem byte_eq (hc : Collected h m o g) (hh : h.Compact) {p j : Nat} (hp : p ∈ h.records)
    (hj : j < h.memory.extent p) : g.memory.byte (p + j) = h.memory.byte (p + j) := by
  have wf := hh.wf
  have hm := (hc.live p hp).mpr (hh.live p hp)
  have hbody := hc.sameBody wf hp
  obtain ⟨-, -, hbytes⟩ := hc.relocated.byte_slide (hc.tiled wf) wf.top_lt (hc.top_le_size wf)
  have hbyte := hbytes p hp hm j (by rw [hbody.extent]; exact hj)
  rw [hc.place_eq hh hp, ← hc.memory] at hbyte
  rw [hbyte]
  have hin : p < o.size := by
    have hlt := wf.lt_top hp
    have hle := hc.top_le_size wf
    rw [hc.relocated.size]
    omega
  by_cases hj0 : j = 0
  · -- the mark was not there before, and is gone again
    subst hj0
    have hheader := hc.same.header p hp
    have hfree := (not_isMarked_iff _ _).mp (wf.unmarked p hp)
    refine UInt8.toNat_inj.mp ?_
    rw [Nat.add_zero, (byte_unmark o hin Nat.one_pos).1, hc.relocated.header p hp]
    omega
  · rw [(byte_unmark o hin (by omega)).2]
    by_cases hj5 : j < 5
    · -- planning writes the place of the record, which stands there already
      have hword : o.word (p + 1) = h.memory.word (p + 1) := by
        have hplace := hc.relocated.forward p hp hm
        rw [hc.place_eq hh hp] at hplace
        exact hplace.trans (hh.forward p hp).symm
      have heq := byte_eq_of_word_eq hword (j - 1) (by omega)
      rwa [Nat.add_assoc, show 1 + (j - 1) = j by omega] at heq
    · rw [← hbody.body j (by omega) hj]
      by_cases href : m.InReference p j
      · -- a reference becomes the place of the record it leads to
        obtain ⟨k, hk, hlow, hhigh⟩ := href
        have hfield : o.field p k = m.field p k := by
          rcases hc.relocated.reference p hp hm k hk with ⟨habs, habs'⟩ | ⟨hmem, -, hplace⟩
          · rw [habs, habs']
          · rw [← hplace, hc.place_eq hh hmem]
        have heq := byte_eq_of_word_eq hfield (j - (5 + 4 * k)) (by omega)
        rwa [fieldAddress_eq, show p + 5 + 4 * k + (j - (5 + 4 * k)) = p + j by omega] at heq
      · exact hc.relocated.payload p hp j (by omega) (by rw [hbody.extent]; exact hj) href

/-- Collecting a compact heap changes nothing but the count of collections. -/
theorem of_compact (hc : Collected h m o g) (hh : h.Compact) :
    (∀ i, g.memory.byte i = h.memory.byte i) ∧ g.top = h.top ∧ g.capacity = h.capacity ∧
      g.roots = h.roots ∧ g.symbols = h.symbols := by
  have wf := hh.wf
  obtain ⟨-, hpast, -⟩ := hc.relocated.byte_slide (hc.tiled wf) wf.top_lt (hc.top_le_size wf)
  refine ⟨fun i => ?_, ?_, (hc.relocation wf).2, ?_, ?_⟩
  · by_cases hi : i < h.top
    · obtain ⟨p, hp, j, hj, rfl⟩ := wf.tiled.exists_mem (Nat.zero_le i) hi
      exact hc.byte_eq hh hp hj
    · rw [hc.memory, hpast i (by omega)]
      exact hc.same.other i fun hmem => hi (wf.lt_top hmem)
  · have hall := (hc.tiled wf).markedBytes_eq fun p hp => (hc.live p hp).mpr (hh.live p hp)
    rw [hc.top]
    omega
  · rw [hc.roots]
    refine Array.ext (by simp) fun i hi _ => ?_
    rw [Array.getElem_map]
    exact hc.place_eq hh (wf.root _ (Array.getElem_mem _))
  · rcases hc.symbols with ⟨habs, habs'⟩ | ⟨hlive, hplace⟩
    · rw [habs, habs']
    · rw [← hplace, hc.place_eq hh (wf.live_mem hlive)]

end Collected

end HeapM

/-- A collection reclaims what is not live and nothing else, and a second one finds nothing to do. -/
theorem collect_reclaims {h : Heap} (wf : h.WellFormed) :
    ∃ (g k : Heap) (place : Nat → Nat), HeapM.collect h = .ok () g ∧
      g.used = (h.liveRecords.map h.memory.recordSize).sum ∧
      (∀ s, s ∈ g.records ↔ ∃ p ∈ h.liveRecords, place p = s) ∧
      (∀ p ∈ h.liveRecords, ∀ q ∈ h.liveRecords, p < q → place p < place q) ∧
      HeapM.collect g = .ok () k ∧ (∀ i, k.memory.byte i = g.memory.byte i) ∧
      k.used = g.used ∧ k.capacity = g.capacity ∧ k.roots = g.roots ∧ k.symbols = g.symbols ∧
      k.pinning = g.pinning ∧ k.collections = g.collections + 1 := by
  obtain ⟨m, o, g, hc⟩ := HeapM.exists_phases wf
  have hr := (hc.relocation wf).1
  have hcompact := hc.compact wf
  obtain ⟨m', o', k, hc'⟩ := HeapM.exists_phases hcompact.wf
  obtain ⟨hbyte, htop, hcapacity, hroots, hsymbols⟩ := hc'.of_compact hcompact
  have hlive : ∀ p, p ∈ h.liveRecords ↔ h.Live p := fun p => by
    simp only [Heap.liveRecords, List.mem_filter, decide_eq_true_iff]
    exact ⟨And.right, fun hp => ⟨wf.live_mem hp, hp⟩⟩
  refine ⟨g, k, m.placeIn h.records, hc.run, hc.top_eq_sum wf, fun s => ?_, fun p hp q hq => ?_,
    hc'.run, hbyte, htop, hcapacity, hroots, hsymbols, hc'.pinning, hc'.collections⟩
  · simp only [hlive]
    exact hr.records s
  · exact hr.increasing p q ((hlive p).mp hp) ((hlive q).mp hq)

/-- The first pair of the knot is reclaimed, and the other two stay through a second collection. -/
theorem collect_reclaims_knot : Heap.knot.WellFormed ∧
    ∃ g k : Heap, HeapM.collect Heap.knot = .ok () g ∧ g.used = 26 ∧
      (Heap.knot.liveRecords.map Heap.knot.memory.recordSize).sum = 26 ∧
      HeapM.collect g = .ok () k ∧ (∀ i, k.memory.byte i = g.memory.byte i) ∧ k.used = 26 := by
  have wf : Heap.knot.WellFormed := by decide +kernel
  obtain ⟨g, k, -, hg, hused, -, -, hk, hbyte, htop, -⟩ := collect_reclaims wf
  have hrun : (match HeapM.collect Heap.knot with
      | .ok _ g => g.used
      | .error _ _ => 0) = 26 := by decide +kernel
  rw [hg] at hrun
  exact ⟨wf, g, k, hg, hrun, hused.symm.trans hrun, hk, hbyte, htop.trans hrun⟩

end ArenaScheme
