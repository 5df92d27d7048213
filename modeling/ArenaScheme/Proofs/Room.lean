import ArenaScheme.Heap.Allocation
import ArenaScheme.Proofs.Agreement

/-! Making room. Whether a heap is exhausted depends on its live bytes only, and those are the same
in two heaps that correspond; how large the memories are at the moment plays no part. -/

namespace ArenaScheme

open Memory Heap

variable {left right : Heap} {n : Nat} {rel : Nat → Nat → Prop} {v : View}

theorem le_doubleUntil (goal fuel size : Nat) : size ≤ doubleUntil goal fuel size := by
  induction fuel generalizing size with
  | zero => exact Nat.le_refl _
  | succ fuel ih =>
    rw [doubleUntil]
    split
    · exact Nat.le_trans (by omega) (ih (2 * size))
    · exact Nat.le_refl _

theorem goal_le_doubleUntil (goal fuel size : Nat) (h : goal ≤ size + fuel) (hpos : 0 < size) :
    goal ≤ doubleUntil goal fuel size := by
  induction fuel generalizing size with
  | zero => exact h
  | succ fuel ih =>
    rw [doubleUntil]
    split
    · exact ih (2 * size) (by omega) (by omega)
    · omega

namespace Heap

variable {rules : Rules} {h g : Heap} {kept : Nat → Prop} {place : Nat → Nat}

/-- A relocation may end in another heap with the same records and roots. -/
theorem Relocation.congr {g' : Heap} (hr : h.Relocation kept place g)
    (hbyte : ∀ i, g'.memory.byte i = g.memory.byte i) (htop : g'.top = g.top)
    (hroots : g'.roots = g.roots) (hsymbols : g'.symbols = g.symbols)
    (hpinning : g'.pinning = g.pinning) (hle : g'.top ≤ g'.capacity)
    (hcapacity : g.capacity ≤ g'.capacity) (hmax : g'.capacity ≤ maxSize) : h.Relocation kept place g' := by
  have hbody : ∀ r, SameBody g.memory r g'.memory r := fun r =>
    SameBody.of_bytes fun i _ => hbyte _
  have htiled : Tiled g'.memory g'.top 0 g.records := by
    rw [htop]
    exact hr.wellFormed.tiled.congr fun r _ => (hbody r).extent
  have hrecords : g'.records = g.records := records_eq htiled (Nat.le_trans hle hmax)
  refine ⟨⟨hle, hmax, by rw [hrecords]; exact htiled, ?_, ?_, ?_, ?_⟩, hr.mem, hr.root, hr.pinned,
    hr.increasing, hr.settled, fun p hp => ?_, ?_, ?_, ?_, ?_, ?_,
    Nat.le_trans hr.capacity_le hcapacity⟩
  · rw [hrecords]
    exact fun r hr' => (isMarked_eq_of_byte (hbyte r)).trans (hr.wellFormed.unmarked r hr')
  · rw [hrecords]
    intro r hr' k hk
    rw [(hbody r).referenceFields] at hk
    rw [(hbody r).reference hk]
    exact hr.wellFormed.reference r hr' k hk
  · rw [hrecords, hroots]
    exact hr.wellFormed.root
  · rw [hrecords, hsymbols]
    exact hr.wellFormed.symbols
  · have hold := hr.record p hp
    refine ⟨(hbody _).kind.trans hold.kind, (isPinned_eq_of_byte (hbyte _)).trans hold.pinned, ?_, ?_⟩
    · exact fun i hlow hi hout => (hbyte _).trans (hold.payload i hlow hi hout)
    · intro k hk
      rw [(hbody _).reference (by rw [hold.referenceFields]; exact hk)]
      exact hold.reference k hk
  · rw [hrecords]
    exact hr.records
  · rw [hroots]
    exact hr.roots
  · rw [hsymbols]
    exact hr.symbols
  · rw [htop]
    exact hr.top_le
  · rw [hpinning]
    exact hr.pinning

/-- A heap that stays as it is. -/
theorem Relocation.refl (wf : h.WellFormed) : h.Relocation (· ∈ h.records) id h := by
  have hlink : ∀ r, r = absent ∨ r ∈ h.records → Linked (Goes (· ∈ h.records) id) r r :=
    fun r hr => hr.imp (fun h => ⟨h, h⟩) fun hmem => ⟨hmem, rfl⟩
  refine ⟨wf, fun _ hp => hp, wf.root, fun _ hp _ => hp, fun _ _ _ _ hlt => hlt, fun _ _ _ => rfl,
    fun p hp => ?_, fun s => ?_, (Array.map_id _).symm, ?_, Nat.le_refl _, rfl, Nat.le_refl _⟩
  · exact Matches.of_sameBody (SameBody.refl _ _) rfl fun k hk =>
      hlink _ (wf.reference p hp k hk)
  · exact ⟨fun hs => ⟨s, hs, rfl⟩, fun ⟨p, hp, heq⟩ => heq ▸ hp⟩
  · exact hlink _ wf.symbols

/-- The heap with further roots. -/
def withKept {n : Nat} (h : Heap) (refs : Vector Ref n) : Heap :=
  { h with roots := h.roots ++ refs.toArray }

/-- `live` bytes are left when everything is collected that neither `h` nor `refs` leads to. -/
def LiveBytes {n : Nat} (h : Heap) (refs : Vector Ref n) (live : Nat) : Prop :=
  ∃ g place, (h.withKept refs).Relocation (h.withKept refs).Live place g ∧ g.top = live

end Heap

/-- A live record on the left stands for a live record on the right. -/
theorem Iso.exists_live (hi : Iso left right rel) (wf : right.WellFormed) {a : Nat}
    (ha : left.Live a) : ∃ b, rel a b ∧ right.Live b := by
  induction ha with
  | @root r hr =>
    obtain ⟨i, hlt, rfl⟩ := Array.mem_iff_getElem.mp hr
    have hroot : left.root i = left.roots[i] := by
      simp only [Heap.root, Array.getElem?_eq_getElem hlt, Option.getD_some]
    exact ⟨right.root i, hroot ▸ hi.root i hlt, .root (root_mem (hi.size ▸ hlt))⟩
  | symbols hne =>
    rcases hi.symbols with ⟨habs, -⟩ | hrel
    · exact absurd habs hne
    · exact ⟨_, hrel, .symbols (wf.ne_absent (hi.right_mem _ _ hrel))⟩
  | @pinned r hr hpin =>
    have hrel := hi.pinned_left r hr hpin
    exact ⟨r, hrel, .pinned (hi.right_mem _ _ hrel) ((hi.record _ _ hrel).pinned.trans hpin)⟩
  | @field r k hr hk hne ih =>
    obtain ⟨b, hrel, hb⟩ := ih
    rcases (hi.record r b hrel).reference k hk with ⟨habs, -⟩ | hlink
    · exact absurd habs hne
    · exact ⟨_, hlink, .field hb (by rw [(hi.record r b hrel).referenceFields]; exact hk)
        (wf.ne_absent (hi.right_mem _ _ hlink))⟩

theorem Iso.mem_of_root (hi : Iso left right rel) {r : Nat} (hr : r ∈ left.roots) :
    r ∈ left.records := by
  obtain ⟨i, hlt, rfl⟩ := Array.mem_iff_getElem.mp hr
  have := hi.left_mem _ _ (hi.root i hlt)
  rwa [Heap.root, Array.getElem?_eq_getElem hlt] at this

/-- Corresponding heaps have the same number of live bytes. -/
theorem Corr.liveBytes_eq (hc : Corr v) {live live' : Nat} {refs refs' : Vector Ref n}
    (hrefs : ∀ i (hi : i < n), v.rel refs[i] refs'[i]) (hl : v.left.LiveBytes refs live)
    (hr : v.right.LiveBytes refs' live') : live = live' := by
  obtain ⟨g, place, hg, rfl⟩ := hl
  obtain ⟨g', place', hg', rfl⟩ := hr
  have hroot : ∀ (h : Heap) (xs : Vector Ref n) (i : Nat), (h.withKept xs).root i =
      if i < h.roots.size then h.root i else (xs.toArray[i - h.roots.size]?).getD null := by
    intro h xs i
    simp only [Heap.root, withKept, Array.getElem?_append]
    split <;> rfl
  have hi : Iso (v.left.withKept refs) (v.right.withKept refs') v.rel := by
    refine { hc.iso with size := ?_, root := fun i hi => ?_ }
    · simp [withKept, hc.iso.size]
    · rw [hroot, hroot, ← hc.iso.size]
      split
      · exact hc.iso.root i ‹_›
      · have hlt : i - v.left.roots.size < n := by
          simp only [withKept, Array.size_append, Vector.size_toArray] at hi
          omega
        simp only [Vector.getElem?_toArray, Vector.getElem?_eq_getElem hlt, Option.getD_some]
        exact hrefs _ hlt
  have hs : (v.left.withKept refs).Sound v.rules :=
    hc.left.withRoots _ fun _ hr => hi.mem_of_root hr
  have hs' : (v.right.withKept refs').Sound v.rules :=
    hc.right.withRoots _ fun _ hr => hi.flip.mem_of_root hr
  have hboth := (hi.moveLeft hs hg).moveRight hs' hg'
  have := hg.wellFormed.tiled.length_eq_of_rel hg'.wellFormed.tiled
    (fun p hp => ?_) (fun q hq => ?_) hboth.order fun a b hrel => (hboth.record a b hrel).extent
  · omega
  · obtain ⟨a, ha, rfl⟩ := (hg.records p).mp hp
    obtain ⟨b, hrel, hb⟩ := hi.exists_live hs'.wf ha
    exact ⟨place' b, hg'.mem_records hb, b, ⟨hb, rfl⟩, a, ⟨ha, rfl⟩, hrel⟩
  · obtain ⟨b, hb, rfl⟩ := (hg'.records q).mp hq
    obtain ⟨a, hrel, ha⟩ := hi.flip.exists_live hs.wf hb
    exact ⟨place a, hg.mem_records ha, b, ⟨hb, rfl⟩, a, ⟨ha, rfl⟩, hrel⟩

namespace HeapM

variable {rules : Rules} {h g : Heap} {request : Nat}

theorem grow_of_gt (h : Heap) (hgt : maxSize < h.top + request) :
    grow request h = .error (.heapExhausted request) h := by
  simp only [grow, bind, EStateM.bind, get, getThe, MonadStateOf.get, EStateM.get]
  rw [if_pos hgt]
  rfl

/-- Growing gives enough room and changes no byte. -/
theorem grow_of_le (hpos : 0 < h.capacity) (hmax : h.capacity ≤ maxSize)
    (hle : h.top + request ≤ maxSize) :
    ∃ g, grow request h = .ok () g ∧ (∀ i, g.memory.byte i = h.memory.byte i) ∧ g.top = h.top ∧
      g.roots = h.roots ∧ g.symbols = h.symbols ∧ g.pinning = h.pinning ∧
      g.top + request ≤ g.capacity ∧ h.capacity ≤ g.capacity ∧ g.capacity ≤ maxSize := by
  have hgoal := goal_le_doubleUntil (max (h.top + request) (2 * h.top))
    (max (h.top + request) (2 * h.top)) h.capacity (by omega) hpos
  have hbefore := le_doubleUntil (max (h.top + request) (2 * h.top))
    (max (h.top + request) (2 * h.top)) h.capacity
  simp only [grow, bind, EStateM.bind, get, getThe, MonadStateOf.get, EStateM.get]
  rw [if_neg (by omega)]
  generalize doubleUntil (max (h.top + request) (2 * h.top)) (max (h.top + request) (2 * h.top))
    h.capacity = size at hgoal hbefore ⊢
  by_cases heq : min size maxSize = h.capacity
  · rw [if_neg (by simp [heq])]
    exact ⟨h, rfl, fun _ => rfl, rfl, rfl, rfl, rfl, by omega, Nat.le_refl _, hmax⟩
  · rw [if_pos (by simp [heq])]
    have hsize : (h.memory.resize (min size maxSize)).size = min size maxSize := by
      rw [size_resize]
      change max h.capacity _ = _
      omega
    refine ⟨{ h with
      memory := h.memory.resize (min size maxSize)
      journal := .growth h.capacity (min size maxSize) :: h.journal }, rfl,
      fun i => byte_resize _ _ _, rfl, rfl, rfl, rfl, ?_, ?_, ?_⟩
    · change h.top + request ≤ (h.memory.resize (min size maxSize)).size
      omega
    · change h.capacity ≤ (h.memory.resize (min size maxSize)).size
      omega
    · change (h.memory.resize (min size maxSize)).size ≤ maxSize
      omega

theorem makeRoom_run {refs : Vector Ref n} (hcollect : collect (h.withKept refs) = .ok () g) :
    makeRoom request refs h =
      (do
        grow request
        return Vector.ofFn fun i => g.roots[h.roots.size + i]?.getD null)
        { g with roots := g.roots.shrink h.roots.size } := by
  have htry : tryFinally (do collect; return (← get).roots : HeapM (Array Ref))
      (releaseRoots h.roots.size) (h.withKept refs) =
      .ok g.roots { g with roots := g.roots.shrink h.roots.size } := by
    simp only [tryFinally, tryFinally', bind, EStateM.bind, hcollect, get, getThe, MonadStateOf.get,
      EStateM.get, Functor.map, EStateM.map, releaseRoots, modify, modifyGet,
      MonadStateOf.modifyGet, EStateM.modifyGet, pure, EStateM.pure]
  exact bind_ok (f := fun moved => do
    grow request
    return Vector.ofFn fun i => moved[h.roots.size + i]?.getD null) htry

/-- Sees to it that `size` more bytes fit; gives `refs` as they are afterwards. -/
def room {n : Nat} (size : Nat) (refs : Vector Ref n) : HeapM (Vector Ref n) := do
  let h ← get
  if h.top + size > h.capacity then makeRoom size refs else pure refs

theorem relocation_dropKept {refs : Vector Ref n} {kept : Nat → Prop} {place : Nat → Nat}
    (hr : (h.withKept refs).Relocation kept place g) :
    h.Relocation kept place { g with roots := g.roots.shrink h.roots.size } := by
  have hroots : g.roots.shrink h.roots.size = h.roots.map place := by
    rw [hr.roots, Array.shrink_eq_take, Array.take, ← Array.map_extract, withKept,
      Array.extract_append_left, Array.extract_size]
  have hsub : ∀ r ∈ g.roots.shrink h.roots.size, r ∈ g.records := by
    intro r hmem
    rw [hroots, Array.mem_map] at hmem
    obtain ⟨q, hq, rfl⟩ := hmem
    exact hr.mem_records (hr.root q (Array.mem_append.mpr (Or.inl hq)))
  exact ⟨{ hr.wellFormed with root := hsub }, hr.mem,
    fun r hmem => hr.root r (Array.mem_append.mpr (Or.inl hmem)), hr.pinned, hr.increasing,
    hr.settled, hr.record, hr.records, hroots, hr.symbols, hr.top_le, hr.pinning, hr.capacity_le⟩

/-- Room for `size` bytes is there in `g`, or there cannot be so much. -/
structure MadeRoom {n : Nat} (h : Heap) (refs : Vector Ref n) (size live : Nat)
    (kept : Nat → Prop) (place : Nat → Nat) (g : Heap) : Prop where
  live_eq : h.LiveBytes refs live
  moved : h.Relocation kept place g
  kept_of_mem : ∀ r ∈ refs, kept r
  run : (live + size ≤ maxSize ∧ room size refs h = .ok (refs.map place) g ∧
      g.top + size ≤ g.capacity) ∨
    (maxSize < live + size ∧ g.top = live ∧ room size refs h = .error (.heapExhausted size) g)

/-- Room is made unless what is live leaves none. -/
theorem room_spec {refs : Vector Ref n} (size : Nat) (wf : h.WellFormed) (hpos : 0 < h.capacity)
    (hrefs : ∀ r ∈ refs, r ∈ h.records) :
    ∃ live kept place g, MadeRoom h refs size live kept place g := by
  have hmem : ∀ r ∈ h.roots ++ refs.toArray, r ∈ h.records := by
    intro r hr
    rcases Array.mem_append.mp hr with hr | hr
    · exact wf.root r hr
    · exact hrefs r (⟨hr⟩)
  have wfKept : (h.withKept refs).WellFormed := { wf with root := hmem }
  obtain ⟨g, place, hcollect, hr, hcapacity⟩ := exists_collected wfKept
  have htop : g.top ≤ h.top := hr.top_le
  refine ⟨g.top, ?_⟩
  have hlive : h.LiveBytes refs g.top := ⟨g, place, hr, rfl⟩
  by_cases hfull : h.top + size > h.capacity
  · have hroom : room size refs h = makeRoom size refs h := by
      simp only [room, bind, EStateM.bind, get, getThe, MonadStateOf.get, EStateM.get]
      rw [if_pos hfull]
    have hdrop := relocation_dropKept hr
    have hkept : ∀ r ∈ refs, (h.withKept refs).Live r := fun r hmem =>
      .root (Array.mem_append.mpr (Or.inr (hmem.val)))
    by_cases hgt : maxSize < g.top + size
    · refine ⟨_, place, _, hlive, hdrop, hkept, Or.inr ⟨hgt, rfl, ?_⟩⟩
      rw [hroom, makeRoom_run hcollect]
      simp only [bind, EStateM.bind, grow_of_gt { g with roots := g.roots.shrink h.roots.size } hgt]
    · have hpos' : 0 < g.capacity := hcapacity ▸ hpos
      obtain ⟨f, hgrow, hbyte, htop', hroots, hsymbols, hpinning, hfit, hgrown, hmax⟩ :=
        grow_of_le (h := { g with roots := g.roots.shrink h.roots.size }) hpos'
          hdrop.wellFormed.capacity_le (Nat.le_of_not_lt hgt)
      refine ⟨_, place, f, hlive, hdrop.congr hbyte htop' hroots hsymbols hpinning (by omega) hgrown
        hmax,
        hkept, Or.inl ⟨Nat.le_of_not_lt hgt, ?_, hfit⟩⟩
      rw [hroom, makeRoom_run hcollect]
      simp only [bind, EStateM.bind, hgrow]
      have hrefs' : (Vector.ofFn fun i : Fin n => g.roots[h.roots.size + i]?.getD null) =
          refs.map place := by
        ext i hi
        simp [hr.roots, withKept]
      rw [hrefs']
      rfl
  · refine ⟨_, id, h, hlive, .refl wf, hrefs, Or.inl ⟨?_, ?_, Nat.le_of_not_lt hfull⟩⟩
    · have := wf.capacity_le
      omega
    · simp only [room, bind, EStateM.bind, get, getThe, MonadStateOf.get, EStateM.get]
      rw [if_neg hfull, Vector.map_id]
      rfl

end HeapM

/-- What holds after room for `size` bytes has been made: the references still correspond and lead
to records of the kinds they had. -/
structure RoomFor {k : Nat} (v : View) (refs : Vector Ref k) (size : Nat) (w : View)
    (xs ys : Vector Ref k) : Prop where
  left : w.left.top + size ≤ w.left.capacity
  right : w.right.top + size ≤ w.right.capacity
  later : Later v.left.roots.size v w
  roots : w.left.roots.size = v.left.roots.size
  rel : ∀ i (hi : i < k), w.Rel xs[i] ys[i]
  kind : ∀ i (hi : i < k), w.left.memory.kind xs[i] = v.left.memory.kind refs[i]
  moved : ∃ kept place, v.left.Relocation kept place w.left ∧ (∀ r ∈ refs, kept r) ∧
    xs = refs.map place

theorem Agrees.room {k size : Nat} {refs refs' : Vector Ref k} (hv : Corr v)
    (hn : n ≤ v.left.roots.size) (hrefs : ∀ i (hi : i < k), v.Rel refs[i] refs'[i]) :
    Agrees n v (RoomFor v refs size) (HeapM.room size refs) (HeapM.room size refs') := by
  have hleft : ∀ r ∈ refs, r ∈ v.left.records := fun r hr => by
    obtain ⟨i, hi, rfl⟩ := Vector.mem_iff_getElem.mp hr
    exact hv.mem_left (hrefs i hi).1
  have hright : ∀ r ∈ refs', r ∈ v.right.records := fun r hr => by
    obtain ⟨i, hi, rfl⟩ := Vector.mem_iff_getElem.mp hr
    exact hv.mem_right (hrefs i hi).1
  obtain ⟨live, kept, place, g, hroom⟩ :=
    HeapM.room_spec size hv.left.wf hv.left.capacity_pos hleft
  obtain ⟨live', kept', place', g', ⟨hlive', hr', hkept', hrun'⟩, hsame⟩ :
      ∃ live' kept' place' g', HeapM.MadeRoom v.right refs' size live' kept' place' g' ∧
        (v.Single → kept' = kept ∧ place' = place ∧ g' = g) := by
    by_cases hs : v.Single
    · obtain rfl : refs = refs' := Vector.ext fun i hi => hs.eq _ _ (hrefs i hi).1
      exact ⟨live, kept, place, g, hs.same ▸ hroom, fun _ => ⟨rfl, rfl, rfl⟩⟩
    · obtain ⟨live', kept', place', g', hroom'⟩ :=
        HeapM.room_spec size hv.right.wf hv.right.capacity_pos hright
      exact ⟨live', kept', place', g', hroom', fun h => absurd h hs⟩
  obtain ⟨hlive, hr, hkept, hrun⟩ := hroom
  have heq := hv.liveBytes_eq (fun i hi => (hrefs i hi).1) hlive hlive'
  have hmid : Corr (v.moveLeft kept place g) := hv.moveLeft hr
  have hend : Corr ((v.moveLeft kept place g).moveRight kept' place' g') := hmid.moveRight hr'
  have hlater : ∀ l ≤ v.left.roots.size,
      Later l v ((v.moveLeft kept place g).moveRight kept' place' g') := fun _ hl =>
    hv.later_move hr hl hsame
  unfold Agrees
  rcases hrun with ⟨hle, hok, hfit⟩ | ⟨hgt, -, herr⟩
  · rcases hrun' with ⟨-, hok', hfit'⟩ | ⟨hgt', -⟩
    · rw [hok, hok']
      refine .ok ((v.moveLeft kept place g).moveRight kept' place' g') hend (hlater n hn)
        ⟨hfit, hfit', hlater _ (Nat.le_refl _), ?_, fun i hi => ?_, fun i hi => ?_,
          kept, place, hr, hkept, rfl⟩
      · change g.roots.size = _
        rw [hr.roots, Array.size_map]
      · rw [Vector.getElem_map, Vector.getElem_map]
        exact Corr.rel_moveRight (hv.rel_moveLeft hr (hrefs i hi) (hkept _ (Vector.getElem_mem hi)))
          (hkept' _ (Vector.getElem_mem hi))
      · rw [Vector.getElem_map]
        exact (hr.record _ (hkept _ (Vector.getElem_mem hi))).kind
    · omega
  · rcases hrun' with ⟨hle', -, -⟩ | ⟨-, -, herr'⟩
    · omega
    · rw [herr, herr']
      exact .error ((v.moveLeft kept place g).moveRight kept' place' g') _ hend (hlater n hn) rfl

end ArenaScheme
