import ArenaScheme.Proofs.Collection.Moving

/-! A collection is an isomorphism of graphs: exactly the live records remain, in the order they
had, and every reference among them leads to where its target went. -/

namespace ArenaScheme

open Memory

variable {g : Heap} {m o : Memory} {r : Nat}

namespace Heap

/-- Whether a record that is kept goes from `r` to `s`. -/
def Goes (kept : Nat → Prop) (place : Nat → Nat) (r s : Nat) : Prop := kept r ∧ place r = s

/-- `g` holds the records of `h` that are kept, each where `place` says. -/
structure Relocation (h : Heap) (kept : Nat → Prop) (place : Nat → Nat) (g : Heap) : Prop where
  wellFormed : g.WellFormed
  mem : ∀ p, kept p → p ∈ h.records
  root : ∀ r ∈ h.roots, kept r
  pinned : ∀ p ∈ h.records, h.memory.isPinned p = true → kept p
  increasing : ∀ p q, kept p → kept q → p < q → place p < place q
  /-- Behind nothing but kept records, a record keeps its place. -/
  settled : ∀ p, kept p → (∀ q ∈ h.records, q < p → kept q) → place p = p
  record : ∀ p, kept p → Matches (Goes kept place) h.memory p g.memory (place p)
  records : ∀ s, s ∈ g.records ↔ ∃ p, Goes kept place p s
  roots : g.roots = h.roots.map place
  symbols : Linked (Goes kept place) h.symbols g.symbols
  top_le : g.top ≤ h.top
  pinning : g.pinning = h.pinning
  capacity_le : h.capacity ≤ g.capacity

end Heap

namespace HeapM

open Heap

variable {h : Heap}

theorem bind_ok {α β : Type} {x : HeapM α} {f : α → HeapM β} {a : α} (hx : x h = .ok a g) :
    (x >>= f) h = f a g := by
  simp only [bind, EStateM.bind, hx]

theorem mem_markingOrder (wf : h.WellFormed) (hr : r ∈ markingOrder h) :
    r = absent ∨ (r ∈ h.records ∧ h.Live r) := by
  unfold markingOrder at hr
  rw [List.mem_append, List.mem_reverse, Array.mem_toList_iff, Array.mem_filter, List.mem_cons,
    List.mem_reverse, Array.mem_toList_iff] at hr
  rcases hr with ⟨hmem, hpin⟩ | rfl | hroot
  · have hmem' : r ∈ h.records := Array.mem_toList_iff.mpr hmem
    exact Or.inr ⟨hmem', .pinned hmem' hpin⟩
  · by_cases habs : h.symbols = absent
    · exact Or.inl habs
    · exact Or.inr ⟨wf.symbols.resolve_left habs, .symbols habs⟩
  · exact Or.inr ⟨wf.root r hroot, .root hroot⟩

theorem markingOrder_root (hr : r ∈ h.roots) : r ∈ markingOrder h := by
  unfold markingOrder
  simp [hr]

theorem markingOrder_symbols (h : Heap) : h.symbols ∈ markingOrder h := by
  unfold markingOrder
  simp

theorem markingOrder_pinned (hr : r ∈ h.records) (hp : h.memory.isPinned r = true) :
    r ∈ markingOrder h := by
  have hmem : r ∈ h.memory.starts h.top := Array.mem_toList_iff.mp hr
  unfold markingOrder
  simp [hmem, hp]

/-- Marking cannot run out of steps. -/
theorem markingWork_lt (wf : h.WellFormed) :
    markingWork h.records h.memory (markingOrder h) < markingFuel h := by
  have hlen := wf.tiled.length_le
  have hcount := List.countP_le_length (p := fun r => !h.memory.isMarked r) (l := h.records)
  have horder : (markingOrder h).length ≤ h.records.length + 1 + h.roots.size := by
    have := @Array.size_filter_le _ h.memory.isPinned (h.memory.starts h.top)
    simp only [markingOrder, List.length_append, List.length_reverse, List.length_cons,
      Array.length_toList, records] at this ⊢
    omega
  have htop := wf.top_le
  have hmul : h.records.countP (fun r => !h.memory.isMarked r) * (h.capacity + 1) ≤
      h.top * (h.capacity + 1) := Nat.mul_le_mul_right _ (by omega)
  have hsucc : (h.top + 1) * (h.capacity + 1) = h.top * (h.capacity + 1) + (h.capacity + 1) :=
    Nat.succ_mul _ _
  unfold markingWork markingFuel
  change _ * (h.capacity + 1) + _ < _
  omega

/-- Marking succeeds and marks what is live. -/
theorem markPhase_eq (wf : h.WellFormed) :
    ∃ m, markPhase h = .ok () { h with memory := m } ∧ SameButMarks h.records h.memory m ∧
      ∀ r ∈ h.records, m.isMarked r = true ↔ h.Live r := by
  have hstart : Marking h.records h.Live h.memory (markingOrder h) (markingOrder h) h.memory := by
    refine ⟨.refl _ _, fun p hp => mem_markingOrder wf hp, fun r hr hm => ?_,
      fun p hp => Or.inr (Or.inr hp), fun r hr hm => ?_⟩
    all_goals
      rw [wf.unmarked r hr] at hm
      cases hm
  obtain ⟨m, heq, hdone⟩ := hstart.run wf.tiled wf.top_le wf.reference
    (fun r _ hlive k hk hne => .field hlive hk hne) (markingFuel h) _ _ (markingWork_lt wf)
  have hgiven : ∀ r ∈ markingOrder h, r ≠ absent → m.isMarked r = true := fun r hr hne =>
    ((hdone.started r hr).resolve_left hne).resolve_right (by simp)
  have hlive : ∀ r, h.Live r → m.isMarked r = true := by
    intro r hr
    induction hr with
    | root hroot => exact hgiven _ (markingOrder_root hroot) (wf.ne_absent (wf.root _ hroot))
    | symbols hne => exact hgiven _ (markingOrder_symbols h) hne
    | pinned hmem hpin => exact hgiven _ (markingOrder_pinned hmem hpin) (wf.ne_absent hmem)
    | field hlive hk hne ih =>
      exact (hdone.closed _ (wf.live_mem hlive) ih _ hk hne).resolve_right (by simp)
  refine ⟨m, ?_, hdone.same, fun r hr => ⟨hdone.marked_good r hr, hlive r⟩⟩
  simp only [markPhase, bind, EStateM.bind, modifyGet, MonadStateOf.modifyGet, EStateM.modifyGet,
    heq]
  rfl

/-- The roots follow the records they lead to. -/
theorem relocateRoots_eq (hroots : ∀ r ∈ h.roots, h.memory.canForward h.top r = true) :
    relocateRoots h = .ok () { h with roots := h.roots.map h.memory.forward } := by
  have hnone : h.roots.findIdx (!h.memory.canForward h.top ·) = h.roots.size :=
    Array.findIdx_eq_size.mpr fun r hr => by simp [hroots r hr]
  have hmap : (h.roots.mapIdx fun i r => if i < h.roots.size then h.memory.forward r else r) =
      h.roots.map h.memory.forward := by
    ext i hi hi'
    · simp
    · simp only [Array.size_mapIdx] at hi
      simp [hi]
  simp only [relocateRoots, bind, EStateM.bind, get, getThe, MonadStateOf.get, EStateM.get, modify,
    modifyGet, MonadStateOf.modifyGet, EStateM.modifyGet, hnone, hmap]
  simp only [Array.getElem?_size]
  rfl

theorem relocateSymbols_eq
    (hsymbols : h.symbols = absent ∨ h.memory.canForward h.top h.symbols = true) :
    relocateSymbols h = .ok () { h with symbols := h.memory.redirected h.symbols } := by
  simp only [relocateSymbols, bind, EStateM.bind, get, getThe, MonadStateOf.get, EStateM.get,
    redirected]
  by_cases habs : h.symbols = absent
  · simp only [if_pos habs]
    rw [← habs]
    rfl
  · rw [if_neg habs, if_neg habs, if_pos (hsymbols.resolve_left habs)]
    rfl

/-- What a collection does once marking has found what is live. -/
theorem collect_eq {n : Memory} {live : Nat} {rs : List Nat}
    (hmark : markPhase h = .ok () { h with memory := m }) (hstarts : m.starts h.top = rs.toArray)
    (hplan : m.plan rs.toArray = (live, n))
    (hrelocate : relocateFields h.top (n.liveAddresses rs.toArray) n = (none, o))
    (hroots : ∀ r ∈ h.roots, o.canForward h.top r = true)
    (hsymbols : h.symbols = absent ∨ o.canForward h.top h.symbols = true) :
    ∃ event, collect h = .ok ()
      { h with
        memory := o.slide rs.toArray, top := live, roots := h.roots.map o.forward
        symbols := o.redirected h.symbols, collections := h.collections + 1
        journal := event :: h.journal } := by
  have hphase : relocatePhase rs.toArray { h with memory := n } = .ok ()
      { h with
        memory := o, roots := h.roots.map o.forward, symbols := o.redirected h.symbols } := by
    have h1 := relocateRoots_eq (h := { h with memory := o }) hroots
    have h2 := relocateSymbols_eq
      (h := { h with memory := o, roots := h.roots.map o.forward }) hsymbols
    have h0 : (modifyGet fun h =>
        let addresses := h.memory.liveAddresses rs.toArray
        let relocated := Memory.relocateFields h.top addresses h.memory
        (relocated.1, { h with memory := relocated.2 }) : HeapM (Option Ref)) { h with memory := n } =
        .ok none { h with memory := o } := by
      simp only [modifyGet, MonadStateOf.modifyGet, EStateM.modifyGet, hrelocate]
    exact (bind_ok h0).trans ((bind_ok rfl).trans ((bind_ok h1).trans h2))
  refine ⟨.collection (h.collections + 1) (bytesBetween live h.top) live, ?_⟩
  simp only [collect, bind, EStateM.bind, hmark, get, getThe, MonadStateOf.get, EStateM.get,
    modifyGet, MonadStateOf.modifyGet, EStateM.modifyGet, hstarts, hplan, hphase]
  rfl

/-- When marks say what is live and the marked records have moved to their places, the collection
is what it should be. -/
theorem relocation_of_moved (wf : h.WellFormed) (hsame : SameButMarks h.records h.memory m)
    (hlive : ∀ r ∈ h.records, m.isMarked r = true ↔ h.Live r) (hsize : g.memory.size = m.size)
    (hmoved : ∀ p ∈ h.records, m.isMarked p = true →
      g.memory.isMarked (m.placeIn h.records p) = false ∧
      Matches (m.Placed h.records) m p g.memory (m.placeIn h.records p))
    (htop : g.top = m.markedBytes h.records) (hroots : g.roots = h.roots.map (m.placeIn h.records))
    (hsymbols : Linked (Goes h.Live (m.placeIn h.records)) h.symbols g.symbols)
    (hpinning : g.pinning = h.pinning) : h.Relocation h.Live (m.placeIn h.records) g := by
  have hbody : ∀ r ∈ h.records, SameBody h.memory r m r := fun r hr => hsame.sameBody wf.tiled hr
  have ht : Tiled m h.top 0 h.records := wf.tiled.congr fun r hr => (hbody r hr).extent
  have hmark : ∀ r, h.Live r → m.isMarked r = true := fun r hr => (hlive r (wf.live_mem hr)).mpr hr
  have hrecord : ∀ p, h.Live p →
      Matches (Goes h.Live (m.placeIn h.records)) h.memory p g.memory (m.placeIn h.records p) := by
    intro p hp
    have hmem := wf.live_mem hp
    have hmatch := (hmoved p hmem (hmark p hp)).2
    refine ⟨hmatch.kind.trans (hbody p hmem).kind, hmatch.pinned.trans (hsame.isPinned hmem), ?_, ?_⟩
    · intro i hlow hlt hout
      have hout' : ¬ m.InReference p i := by
        unfold InReference
        rw [(hbody p hmem).referenceFields]
        exact hout
      rw [hmatch.payload i hlow (by rw [(hbody p hmem).extent]; exact hlt) hout',
        (hbody p hmem).body i hlow hlt]
    · intro k hk
      have hk' : k ∈ m.referenceFields p := by rw [(hbody p hmem).referenceFields]; exact hk
      rw [← (hbody p hmem).reference hk]
      exact (hmatch.reference k hk').mono fun ⟨h1, h2, h3⟩ => ⟨(hlive _ h1).mp h2, h3⟩
  have htiled : Tiled g.memory g.top 0
      ((h.records.filter m.isMarked).map (m.placeIn h.records)) := by
    have := ht.compacted (n := g.memory) 0 fun p hp hm => by
      rw [Nat.zero_add]
      exact (hmoved p hp hm).2.extent
    simpa only [Nat.zero_add, ← htop] using this
  have htop_le : g.top ≤ h.top := by
    have := ht.markedBytes_le
    omega
  have hrecords : ∀ s, s ∈ g.records ↔ ∃ p, Goes h.Live (m.placeIn h.records) p s := by
    intro s
    rw [records_eq htiled (Nat.le_trans htop_le wf.top_le_max), List.mem_map]
    refine exists_congr fun p => and_congr_left fun _ => ?_
    rw [List.mem_filter]
    exact ⟨fun ⟨h1, h2⟩ => (hlive p h1).mp h2, fun hp => ⟨wf.live_mem hp, hmark p hp⟩⟩
  refine ⟨⟨?_, ?_, ?_, ?_, ?_, ?_, ?_⟩, fun _ => wf.live_mem, fun _ => .root, fun _ => .pinned,
    fun p q hp hq hlt => ?_, fun p hp hall => ?_, hrecord, hrecords, hroots, hsymbols, htop_le,
    hpinning, Nat.le_of_eq (hsame.size.symm.trans hsize.symm)⟩
  · exact Nat.le_trans htop_le (by rw [capacity, hsize, hsame.size]; exact wf.top_le)
  · rw [capacity, hsize, hsame.size]
    exact wf.capacity_le
  · rw [records_eq htiled (Nat.le_trans htop_le wf.top_le_max)]
    exact htiled
  · intro s hs
    obtain ⟨p, hp, rfl⟩ := (hrecords s).mp hs
    exact (hmoved p (wf.live_mem hp) (hmark p hp)).1
  · intro s hs k hk
    obtain ⟨p, hp, rfl⟩ := (hrecords s).mp hs
    rw [(hrecord p hp).referenceFields] at hk
    rcases (hrecord p hp).reference k hk with ⟨-, habs⟩ | hmove
    · exact Or.inl habs
    · exact Or.inr ((hrecords _).mpr ⟨_, hmove⟩)
  · intro s hs
    rw [hroots, Array.mem_map] at hs
    obtain ⟨r, hr, rfl⟩ := hs
    exact (hrecords _).mpr ⟨r, .root hr, rfl⟩
  · exact hsymbols.imp And.right fun hmove => (hrecords _).mpr ⟨_, hmove⟩
  · exact ht.placeIn_lt_placeIn (wf.live_mem hp) (wf.live_mem hq) hlt (hmark p hp)
  · have := ht.placeIn_eq (wf.live_mem hp) fun q hq hlt => hmark q (hall q hq hlt)
    omega

/-- How a collection of `h` comes to `g`: `m` is the memory once it is marked, `o` once it is
relocated. -/
structure Collected (h : Heap) (m o : Memory) (g : Heap) : Prop where
  same : SameButMarks h.records h.memory m
  live : ∀ r ∈ h.records, m.isMarked r = true ↔ h.Live r
  relocated : Relocated h.top h.records m o
  run : collect h = .ok () g
  memory : g.memory = o.slide h.records.toArray
  top : g.top = m.markedBytes h.records
  roots : g.roots = h.roots.map (m.placeIn h.records)
  symbols : Linked (Goes h.Live (m.placeIn h.records)) h.symbols g.symbols
  pinning : g.pinning = h.pinning
  collections : g.collections = h.collections + 1

namespace Collected

variable {m o : Memory} {g : Heap}

theorem sameBody (hc : Collected h m o g) (wf : h.WellFormed) (hr : r ∈ h.records) :
    SameBody h.memory r m r := hc.same.sameBody wf.tiled hr

theorem tiled (hc : Collected h m o g) (wf : h.WellFormed) : Tiled m h.top 0 h.records :=
  wf.tiled.congr fun _ hr => (hc.sameBody wf hr).extent

theorem top_le_size (hc : Collected h m o g) (wf : h.WellFormed) : h.top ≤ m.size :=
  hc.same.size ▸ wf.top_le

end Collected

/-- A collection of a well-formed heap succeeds. -/
theorem exists_phases (wf : h.WellFormed) : ∃ m o g, Collected h m o g := by
  obtain ⟨m, hmark, hsame, hlive⟩ := markPhase_eq wf
  have htop := wf.top_lt
  have hsize : h.top ≤ m.size := hsame.size ▸ wf.top_le
  have hbody : ∀ r ∈ h.records, SameBody h.memory r m r := fun r hr => hsame.sameBody wf.tiled hr
  have ht : Tiled m h.top 0 h.records := wf.tiled.congr fun r hr => (hbody r hr).extent
  have href : ∀ r ∈ h.records, m.isMarked r = true → ∀ k ∈ m.referenceFields r,
      m.field r k = absent ∨ (m.field r k ∈ h.records ∧ m.isMarked (m.field r k) = true) := by
    intro r hr hm k hk
    rw [(hbody r hr).referenceFields] at hk
    rw [(hbody r hr).reference hk]
    by_cases habs : h.memory.field r k = absent
    · exact Or.inl habs
    · have hmem := (wf.reference r hr k hk).resolve_left habs
      exact Or.inr ⟨hmem, (hlive _ hmem).mpr (.field ((hlive r hr).mp hm) hk habs)⟩
  obtain ⟨n, o, hplan, hrelocate, hdone⟩ := exists_relocated ht htop hsize href
  have hforward : ∀ r, h.Live r → o.canForward h.top r = true ∧
      o.forward r = m.placeIn h.records r := by
    intro r hr
    have hmem := wf.live_mem hr
    have hm := (hlive r hmem).mpr hr
    refine ⟨?_, hdone.forward r hmem hm⟩
    rw [canForward, (hdone.same hmem).1, hm, Bool.and_true, decide_eq_true (wf.lt_top hmem)]
  obtain ⟨event, heq⟩ := collect_eq hmark (ht.starts_eq htop) hplan hrelocate
    (fun r hr => (hforward r (.root hr)).1)
    (if habs : h.symbols = absent then .inl habs else .inr (hforward _ (.symbols habs)).1)
  refine ⟨m, o, _, hsame, hlive, hdone, heq, rfl, rfl, ?_, ?_, rfl, rfl⟩
  · exact Array.map_congr_left fun r hr => (hforward r (.root hr)).2
  · by_cases habs : h.symbols = absent
    · exact Or.inl ⟨habs, if_pos habs⟩
    · refine Or.inr ⟨.symbols habs, ?_⟩
      change _ = o.redirected h.symbols
      rw [redirected, if_neg habs, (hforward _ (.symbols habs)).2]

theorem Collected.relocation (hc : Collected h m o g) (wf : h.WellFormed) :
    h.Relocation h.Live (m.placeIn h.records) g ∧ g.capacity = h.capacity := by
  obtain ⟨hslide, hmoved⟩ := hc.relocated.slide (hc.tiled wf) wf.top_lt (hc.top_le_size wf)
  rw [← hc.memory] at hslide hmoved
  exact ⟨relocation_of_moved wf hc.same hc.live hslide hmoved hc.top hc.roots hc.symbols hc.pinning,
    hslide.trans hc.same.size⟩

/-- A collection of a well-formed heap succeeds and keeps what is live. -/
theorem exists_collected (wf : h.WellFormed) :
    ∃ g place, collect h = .ok () g ∧ h.Relocation h.Live place g ∧ g.capacity = h.capacity := by
  obtain ⟨m, o, g, hc⟩ := exists_phases wf
  exact ⟨g, _, hc.run, hc.relocation wf⟩

end HeapM

/-- Collection is an isomorphism of graphs. -/
theorem collect_isomorphism {h : Heap} (wf : h.WellFormed) :
    ∃ (g : Heap) (place : Nat → Nat), HeapM.collect h = .ok () g ∧ g.WellFormed ∧
      (∀ p q, h.Live p → h.Live q → p < q → place p < place q) ∧
      (∀ s, s ∈ g.records ↔ ∃ p, h.Live p ∧ place p = s) ∧
      (∀ p, h.Live p →
        Matches (fun a b => h.Live a ∧ place a = b) h.memory p g.memory (place p)) ∧
      g.roots = h.roots.map place ∧
      Linked (fun a b => h.Live a ∧ place a = b) h.symbols g.symbols := by
  obtain ⟨g, place, heq, hg, -⟩ := HeapM.exists_collected wf
  exact ⟨g, place, heq, hg.wellFormed, hg.increasing, hg.records, hg.record, hg.roots, hg.symbols⟩

/-- Three pairs: one that nothing leads to, and two that refer to each other and to themselves. -/
def Heap.knot : Heap :=
  { Heap.new 0 with
    memory := (((((Memory.zeros 48).putHeader 0 .pair false).writeWords 5 [13, 26]).putHeader
      13 .pair false).writeWords 18 [26, 13] |>.putHeader 26 .pair false).writeWords 31 [13, 26]
    top := 39
    roots := #[26] }

theorem collect_knot : Heap.knot.WellFormed ∧
    ∃ (g : Heap) (place : Nat → Nat), HeapM.collect Heap.knot = .ok () g ∧
    g.WellFormed ∧ (∀ s, s ∈ g.records ↔ ∃ p, Heap.knot.Live p ∧ place p = s) ∧
    g.roots = #[place 26] := by
  have wf : Heap.knot.WellFormed := by decide +kernel
  obtain ⟨g, place, heq, hg, -, hrecords, -, hroots, -⟩ := collect_isomorphism wf
  exact ⟨wf, g, place, heq, hg, hrecords, hroots.trans (by simp [Heap.knot])⟩

end ArenaScheme
