import ArenaScheme.Proofs.HeapRuns
import ArenaScheme.Proofs.StoreConstructors

/-! The remaining operations on the store: lists of roots are made pair by pair, updates overwrite
one field, and interning a new name adds a symbol and one link to it. -/

namespace ArenaScheme

open Memory Heap

variable {g h : Heap} {index : Int} {kind : Kind} {r tail : Ref} {expected : String} {u : Unit}

/-! Lists. -/

/-- The pairs of a list with the given elements and tail, at the given positions. -/
def chain : (positions elements : List Ref) → (tail : Ref) → List (Ref × Content)
  | p :: ps, x :: xs, tail => (p, .pair x (ps.headD tail)) :: chain ps xs tail
  | _, _, _ => []

theorem chain_append {ps xs : List Ref} (hlength : ps.length = xs.length) (p x tail : Ref) :
    chain (ps ++ [p]) (xs ++ [x]) tail = chain ps xs p ++ [(p, .pair x tail)] := by
  induction ps generalizing xs with
  | nil =>
    obtain rfl := List.length_eq_zero_iff.mp hlength.symm
    rfl
  | cons q ps ih =>
    cases xs with
    | nil => cases hlength
    | cons y xs =>
      rw [List.cons_append, List.cons_append, chain, ih (Nat.succ.inj hlength), chain,
        List.cons_append]
      cases ps <;> rfl

/-- Whatever the new pair of a list leads to can be reached from it. -/
theorem Heap.Extends.reaches_pair {k : Heap} {x p : Ref} {kept : Ref → Prop} {place : Ref → Ref}
    (he : h.Extends [x, tail] h.roots.size kept place [(r, .pair (place x) (place tail))] k)
    (hp : h.Reaches [tail] p) : k.Reaches [r] (place p) := by
  have hlist : k.Reaches [r] r := .root (Array.mem_append.mpr (Or.inr (by simp)))
  have hmem : ∀ {q}, h.Reaches [tail] q →
      place q ∈ k.records ∧ k.content (place q) = (h.content q).map place :=
    fun hq => store_eq_some.mp (he.old _ (he.reached _ (hq.mono fun y hy => Or.inr (.tail _ hy))))
  induction hp with
  | root hr =>
    rcases Array.mem_append.mp hr with hr | hr
    · refine .root (Array.mem_append.mpr (Or.inl ?_))
      rw [he.roots, Array.extract_size]
      exact Array.mem_map_of_mem hr
    · obtain rfl : _ = tail := by simpa using hr
      have hpair := (store_eq_some.mp (he.new _ (.head _))).2
      refine hlist.reference (hpair ▸ .tail _ (.head _)) (he.wellFormed.ne_absent (hmem ?_).1)
      exact .root (Array.mem_append.mpr (Or.inr (by simp)))
  | symbols hne =>
    have hmoved : k.symbols ≠ ArenaScheme.absent := by
      rw [he.symbols]
      exact he.wellFormed.ne_absent (hmem (.symbols hne)).1
    change k.Reaches [r] (place h.symbols)
    rw [← he.symbols]
    exact .symbols hmoved
  | pinned hr hpin =>
    have hreached : h.Reaches [tail] _ := .pinned hr hpin
    exact .pinned (hmem hreached).1
      ((he.pinned _ (he.reached _ (hreached.mono fun y hy => Or.inr (.tail _ hy)))).trans hpin)
  | field hr hk hne ih =>
    have hreached : h.Reaches [tail] _ := .field hr hk hne
    refine ih.reference ?_ (he.wellFormed.ne_absent (hmem hreached).1)
    rw [(hmem hr).2, Content.references_map, references_content]
    exact List.mem_map_of_mem (List.mem_map_of_mem hk)

/-- Consing adds one pair for each root, the last one first. -/
theorem HeapM.extends_listOnto {start : Nat} (count : Nat) (hs : h.Filled)
    (htail : tail ∈ h.records) (hslots : start + count ≤ h.roots.size)
    (hrun : HeapM.listOnto start count tail h = .ok r g) :
    ∃ kept place ps, ps.length = count ∧ r = ps.headD (place tail) ∧
      h.Extends [tail] h.roots.size kept place
        (chain ps ((h.roots.extract start (start + count)).toList.map place) (place tail)) g := by
  induction count generalizing h tail with
  | zero =>
    cases hrun
    exact ⟨_, id, [], rfl, rfl, .refl hs.toWellFormed (by simpa using htail)⟩
  | succ count ih =>
    have hlt : start + count < h.roots.size := by omega
    have hroot : h.root (start + count) = h.roots[start + count] := by
      rw [Heap.root, Array.getElem?_eq_getElem hlt]
      rfl
    have hx : h.roots[start + count] ∈ h.records := hs.root _ (Array.getElem_mem hlt)
    rw [HeapM.listOnto, HeapM.root_bind, hroot] at hrun
    generalize hx' : h.roots[start + count] = x at hx hrun
    obtain ⟨list, k, hcons, hrest⟩ := HeapM.exists_of_bind hrun
    obtain ⟨kept, place, he⟩ := HeapM.extends_cons hs hx htail hcons
    have hlist : list ∈ k.records := (store_eq_some.mp (he.new _ (.head _))).1
    have hroots : k.roots = h.roots.map place := by rw [he.roots, Array.extract_size]
    have hsize : k.roots.size = h.roots.size := by rw [hroots, Array.size_map]
    have hsk : k.Filled := ⟨he.wellFormed, Nat.lt_of_le_of_lt (Nat.zero_le _)
      (he.wellFormed.lt_top hlist)⟩
    obtain ⟨kept', place', ps, hlength, hr, he'⟩ := ih hsk hlist (by rw [hsize]; omega) hrest
    have hreached : k.Reaches [list] list := .root (Array.mem_append.mpr (Or.inr (by simp)))
    have hfirst : h.Extends [tail] h.roots.size kept place _ k :=
      he.weaken fun y hy => Or.inr (.tail _ hy)
    have hboth := hfirst.trans he' (Nat.le_of_eq hsize) (fun p hp => he.reaches_pair hp)
      fun n hn => List.mem_singleton.mp hn ▸ hreached
    refine ⟨fun p => kept p ∧ kept' (place p), place' ∘ place, ps ++ [place' list],
      by simp [hlength], ?_, ?_⟩
    · rw [hr]
      cases ps <;> rfl
    · have hitems : (h.roots.extract start (start + (count + 1))).toList =
          (h.roots.extract start (start + count)).toList ++ [x] := by
        rw [← Nat.add_assoc, Array.extract_succ_right (by omega) hlt, Array.toList_push, hx']
      have hchain : ps.length = ((h.roots.extract start (start + count)).toList.map
          (place' ∘ place)).length := by
        rw [hlength, List.length_map, Array.length_toList, Array.size_extract]
        omega
      rw [hitems, List.map_append, List.map_singleton, chain_append hchain]
      rw [hsize, hroots, ← Array.map_extract, Array.toList_map, List.map_map] at hboth
      exact hboth

/-- A list of roots adds one pair for each of them, and the roots are released. -/
theorem HeapM.extends_listFromRoots {base : Nat} (hs : h.Filled) (htail : tail ∈ h.records)
    (hbase : base ≤ h.roots.size) (hrun : HeapM.listFromRoots base tail h = .ok r g) :
    ∃ kept place ps, ps.length = h.roots.size - base ∧ r = ps.headD (place tail) ∧
      h.Extends [tail] base kept place
        (chain ps ((h.roots.extract base h.roots.size).toList.map place) (place tail)) g := by
  rw [HeapM.listFromRoots, HeapM.rootCount_bind] at hrun
  obtain ⟨list, k, hlist, hrest⟩ := HeapM.exists_of_bind hrun
  obtain ⟨kept, place, ps, hlength, hr, he⟩ :=
    HeapM.extends_listOnto (h.roots.size - base) hs htail (by omega) hlist
  rw [Nat.add_sub_cancel' hbase] at he
  have hpure : EStateM.Result.ok list { k with roots := k.roots.shrink base } = .ok r g := hrest
  obtain ⟨rfl, rfl⟩ := EStateM.Result.ok.inj hpure
  exact ⟨kept, place, ps, hlength, hr, he.release hbase⟩

/-! Updates. -/

/-- Overwriting one field changes one object. -/
theorem Heap.WellFormed.updates {r k t : Nat} (wf : h.WellFormed) (hr : r ∈ h.records)
    (hkind : h.memory.kind r ∈ [Kind.pair, .string, .vector, .symbol]) (hk : h.memory.Settable r k)
    (ht : k ∈ h.memory.referenceFields r → t ∈ h.records) (hlt : t < 4294967296) :
    h.Updates r ((h.content r).put k t) { h with memory := h.memory.setField r k t } := by
  have hset := fieldSet_setField wf.tiled wf.top_le hr hk hlt
  generalize h.memory.setField r k t = n at hset ⊢
  have hrecords := wf.records_setField hset
  refine ⟨wf.setField hset fun hmem => Or.inr (ht hmem), ?_, fun p hne => ?_,
    fun p hp => isPinned_eq_of_byte (hset.header p hp), rfl, rfl⟩
  · have hcontent := content_put (g := { h with memory := n }) hset hr hkind hk
    exact store_eq_some.mpr ⟨hrecords ▸ hr, hcontent⟩
  · unfold store
    rw [hrecords]
    split
    · next hp => rw [content_other (g := { h with memory := n }) hset hp hne]
    · rfl

/-- The calls that change a record. -/
inductive Mutation where
  | setCar (pair value : Ref)
  | setCdr (pair value : Ref)
  | stringSet (string : Ref) (index : Int) (c : Char)
  | vectorSet (vector : Ref) (index : Int) (value : Ref)

namespace Mutation

def run : Mutation → HeapM Unit
  | setCar pair value => HeapM.setCar pair value
  | setCdr pair value => HeapM.setCdr pair value
  | stringSet string index c => HeapM.stringSet string index c
  | vectorSet vector index value => HeapM.vectorSet vector index value

/-- The record to be changed. -/
def target : Mutation → Ref
  | setCar r _ | setCdr r _ | stringSet r _ _ | vectorSet r _ _ => r

/-- The references that an update is given. -/
def refs : Mutation → List Ref
  | setCar r value | setCdr r value | vectorSet r _ value => [r, value]
  | stringSet r _ _ => [r]

/-- How the contents of the record change: one field takes another value. -/
inductive Changes : Mutation → Content → Content → Prop
  | setCar {pair value car cdr : Ref} : Changes (setCar pair value) (.pair car cdr) (.pair value cdr)
  | setCdr {pair value car cdr : Ref} : Changes (setCdr pair value) (.pair car cdr) (.pair car value)
  | stringSet {string : Ref} {i : Nat} {c : Char} {codes : List Nat} : i < codes.length →
    Changes (stringSet string i c) (.string codes) (.string (codes.set i c.toNat))
  | vectorSet {vector value : Ref} {i : Nat} {elements : List Ref} : i < elements.length →
    Changes (vectorSet vector i value) (.vector elements) (.vector (elements.set i value))

end Mutation

theorem Heap.expectKind_eq_ok (hok : h.expectKind kind expected r = .ok u) :
    h.memory.kind r = kind := by
  unfold expectKind at hok
  split at hok
  · assumption
  · cases hok

theorem HeapM.exists_of_query_bind {α β : Type} {question : Heap → Except Fault α} {f : α → HeapM β}
    {b : β} (hrun : (HeapM.query question >>= f) h = .ok b g) :
    ∃ a, question h = .ok a ∧ f a h = .ok b g := by
  rw [HeapM.query_bind] at hrun
  split at hrun
  case h_1 a ha => exact ⟨a, ha, hrun⟩
  case h_2 => cases hrun

theorem checkedIndex_eq_ok {length i : Nat} (hok : checkedIndex length index = .ok i) :
    index = i ∧ i < length := by
  unfold checkedIndex at hok
  split at hok
  · cases hok
    omega
  · cases hok

namespace HeapM

variable {h g : Heap} {r value : Ref} {k : Nat}

theorem setField_eq_ok (hrun : setField r k value h = .ok u g) :
    g = { h with memory := h.memory.setField r k value } := by
  have hset : EStateM.Result.ok () { h with memory := h.memory.setField r k value } = .ok u g := hrun
  exact (EStateM.Result.ok.inj hset).2.symm

/-- Changing a field of a pair. -/
theorem pairSet_eq_ok
    (hrun : (do
      query (·.expectKind .pair "pair" r)
      setField r k value : HeapM Unit) h = .ok u g) :
    h.memory.kind r = .pair ∧ g = { h with memory := h.memory.setField r k value } := by
  obtain ⟨_, hok, hset⟩ := exists_of_query_bind hrun
  exact ⟨expectKind_eq_ok hok, setField_eq_ok hset⟩

/-- Changing an element of a string or a vector. -/
theorem elementSet_eq_ok
    (hrun : (do
      let length ← query fun h => do
        h.expectKind kind expected r
        return h.field r 0
      let i ← query fun _ => checkedIndex length index
      setField r (1 + i) value : HeapM Unit) h = .ok u g) :
    ∃ i : Nat, index = i ∧ h.memory.kind r = kind ∧ i < h.field r 0 ∧
      g = { h with memory := h.memory.setField r (1 + i) value } := by
  obtain ⟨length, hlength, hrun⟩ := exists_of_query_bind hrun
  obtain ⟨i, hi, hset⟩ := exists_of_query_bind hrun
  obtain ⟨hindex, hlt⟩ := checkedIndex_eq_ok hi
  cases hk : h.expectKind kind expected r with
  | error fault =>
    rw [hk] at hlength
    cases hlength
  | ok _ =>
    rw [hk] at hlength
    cases hlength
    exact ⟨i, hindex, expectKind_eq_ok hk, hlt, setField_eq_ok hset⟩

end HeapM

theorem Heap.WellFormed.updates_pair {pair value k : Nat} (wf : h.WellFormed)
    (hpair : pair ∈ h.records) (hkind : h.memory.kind pair = .pair) (hk : k ∈ [0, 1])
    (hvalue : value ∈ h.records) :
    h.Updates pair ((Content.pair (h.field pair 0) (h.field pair 1)).put k value)
      { h with memory := h.memory.setField pair k value } := by
  have hcontent : h.content pair = .pair (h.field pair 0) (h.field pair 1) := by
    simp only [content, Heap.kind, hkind]
  have hfields : h.memory.referenceFields pair = [0, 1] := by simp only [referenceFields, hkind]
  rw [← hcontent]
  exact wf.updates hpair (by simp [hkind]) (Or.inl (hfields ▸ hk)) (fun _ => hvalue)
    (Nat.lt_trans (wf.lt_top hvalue) wf.top_lt)

/-- An update that succeeds changes one field of one object. -/
theorem Mutation.updates {u : Mutation} (wf : h.WellFormed) (hrefs : ∀ r ∈ u.refs, r ∈ h.records)
    (hrun : u.run h = .ok () g) :
    ∃ content, u.Changes (h.content u.target) content ∧ h.Updates u.target content g := by
  cases u with
  | setCar pair value =>
    obtain ⟨hkind, rfl⟩ := HeapM.pairSet_eq_ok hrun
    refine ⟨_, ?_, wf.updates_pair (hrefs pair (by simp [refs])) hkind (by simp)
      (hrefs value (by simp [refs]))⟩
    simp only [target, content, Heap.kind, hkind]
    exact .setCar
  | setCdr pair value =>
    obtain ⟨hkind, rfl⟩ := HeapM.pairSet_eq_ok hrun
    refine ⟨_, ?_, wf.updates_pair (hrefs pair (by simp [refs])) hkind (by simp)
      (hrefs value (by simp [refs]))⟩
    simp only [target, content, Heap.kind, hkind]
    exact .setCdr
  | stringSet string index c =>
    obtain ⟨i, rfl, hkind, hlt, rfl⟩ := HeapM.elementSet_eq_ok hrun
    have hsettable : h.memory.Settable string (1 + i) :=
      Or.inr ⟨hkind, Nat.le_add_right 1 i, by simp only [Heap.field] at hlt; omega⟩
    refine ⟨_, ?_, wf.updates (hrefs string (by simp [refs])) (by simp [target, hkind]) hsettable
      (by simp [target, referenceFields, hkind]) (HeapM.char_lt c)⟩
    simp only [target, content, Heap.kind, hkind, Content.put, Nat.add_sub_cancel_left]
    exact .stringSet (by simpa [elements] using hlt)
  | vectorSet vector index value =>
    obtain ⟨i, rfl, hkind, hlt, rfl⟩ := HeapM.elementSet_eq_ok hrun
    have hvalue := hrefs value (by simp [refs])
    have hmem : 1 + i ∈ h.memory.referenceFields vector := by
      simp only [referenceFields, hkind]
      exact List.mem_range'_1.mpr (by simp only [Heap.field] at hlt; omega)
    refine ⟨_, ?_, wf.updates (hrefs vector (by simp [refs])) (by simp [target, hkind])
      (Or.inl hmem)
      (fun _ => hvalue) (Nat.lt_trans (wf.lt_top hvalue) wf.top_lt)⟩
    simp only [target, content, Heap.kind, hkind, Content.put, Nat.add_sub_cancel_left]
    exact .vectorSet (by simpa [elements] using hlt)

/-! New names. -/

/-- The walk to the place of a new name ends at a link that leads nowhere yet. `inside` holds of the
symbols that the walk can come to. -/
theorem Heap.symbolLink_ends {h : Heap} {name : List UInt8} {inside : Nat → Prop}
    (hinside : ∀ r, inside r → r < h.top ∧ r ≠ absent ∧
      ∀ k ∈ [0, 1], h.field r k = absent ∨ r < h.field r k ∧ inside (h.field r k))
    (fuel : Nat) {node : Nat} (link : Option (Ref × Nat)) (hnode : inside node)
    (hfuel : h.top ≤ node + fuel) :
    ∃ last side, inside last ∧ side ∈ [0, 1] ∧ h.field last side = absent ∧
      h.symbolLink name fuel node link = some (last, side) := by
  induction fuel generalizing node link with
  | zero =>
    have := (hinside node hnode).1
    omega
  | succ fuel ih =>
    obtain ⟨-, hne, hlinks⟩ := hinside node hnode
    rw [symbolLink, if_neg hne]
    have hside : (if compare name (h.nameBytes node) == .lt then 0 else 1) ∈ [0, 1] := by
      split <;> simp
    generalize (if compare name (h.nameBytes node) == .lt then 0 else 1) = side at hside
    rcases hlinks side hside with habs | ⟨hlt, hnext⟩
    · refine ⟨node, side, hnode, hside, habs, ?_⟩
      simp only [habs]
      cases fuel with
      | zero => rfl
      | succ fuel => rw [symbolLink, if_pos rfl]
    · exact ih _ hnext (by omega)

/-- The store after a symbol has joined the symbol table: its position is the table's root, or it has
become the value of a link that led nowhere. -/
inductive Heap.Joins (h : Heap) (r : Ref) : Heap → Prop
  | first : h.symbols = absent → Joins h r { h with symbols := r }
  | left {node right : Ref} {digest : Nat} {name : List UInt8} {g : Heap} : node ≠ r →
    h.content node = .symbol absent right digest name →
    h.Updates node (.symbol r right digest name) g → Joins h r g
  | right {node left : Ref} {digest : Nat} {name : List UInt8} {g : Heap} : node ≠ r →
    h.content node = .symbol left absent digest name →
    h.Updates node (.symbol left r digest name) g → Joins h r g

/-- Symbols stay ordered when records move. -/
theorem Heap.SymbolsOrdered.relocate {k : Heap} {kept : Nat → Prop} {place : Nat → Nat}
    (ho : h.SymbolsOrdered) (wf : h.WellFormed) (hr : h.Relocation kept place k) :
    k.SymbolsOrdered := by
  constructor
  · intro hne
    rcases hr.symbols with ⟨-, habs⟩ | ⟨hkept, heq⟩
    · exact absurd habs hne
    · rw [← heq, (hr.record _ hkept).kind]
      exact ho.table (wf.ne_absent (hr.mem _ hkept))
  · intro s hs hkind i hi
    obtain ⟨r, hkept, rfl⟩ := (hr.records s).mp hs
    have hmatch := hr.record r hkept
    have hkind' : h.memory.kind r = .symbol := hmatch.kind.symm.trans hkind
    have hi' : i ∈ h.memory.referenceFields r := by simpa only [referenceFields, hkind'] using hi
    rcases hmatch.reference i hi' with ⟨-, habs⟩ | ⟨hkept', heq⟩
    · exact Or.inl habs
    · rw [← heq]
      have hne := wf.ne_absent (hr.mem _ hkept')
      obtain ⟨hlt, hsymbol⟩ := (ho.links r (hr.mem r hkept) hkind' i hi).resolve_left hne
      exact Or.inr ⟨hr.increasing _ _ hkept hkept' hlt, (hr.record _ hkept').kind.trans hsymbol⟩

theorem Text.digest_lt (name : List UInt8) : Text.digest name < 4294967296 :=
  Nat.mod_lt _ (by decide)

theorem Heap.symbolLink_absent (h : Heap) (name : List UInt8) (fuel : Nat)
    (link : Option (Ref × Nat)) : h.symbolLink name fuel absent link = link := by
  cases fuel with
  | zero => rfl
  | succ fuel => rw [symbolLink, if_pos rfl]

/-- Hanging the newest symbol into the table writes one link. -/
theorem Heap.Placed.joins {k mid : Heap} {name : List UInt8} {digest : Nat}
    (hm : k.Placed .symbol [absent, absent, digest, name.length] name (symbolSize name.length)
      mid.memory)
    (wf : k.WellFormed) (ho : k.SymbolsOrdered) (wf' : mid.WellFormed)
    (hmid : mid = { k with memory := mid.memory, top := k.top + symbolSize name.length })
    (hrun : HeapM.attachSymbol name k.top mid = .ok () g) : mid.Joins k.top g := by
  have hrecords : mid.records = k.records ++ [k.top] := hmid ▸ hm.records wf
  have htop : mid.top = k.top + symbolSize name.length := by rw [hmid]
  have hsymbols : mid.symbols = k.symbols := by rw [hmid]
  rw [HeapM.attachSymbol_run, hsymbols] at hrun
  by_cases hne : k.symbols = absent
  · rw [hne, symbolLink_absent] at hrun
    obtain ⟨-, rfl⟩ := EStateM.Result.ok.inj hrun
    exact .first (hsymbols.trans hne)
  · have hinside : ∀ r : Nat, r ∈ k.records ∧ k.memory.kind r = .symbol → r < mid.top ∧ r ≠ absent ∧
        ∀ i ∈ [0, 1], mid.field r i = absent ∨ r < mid.field r i ∧
          mid.field r i ∈ k.records ∧ k.memory.kind (mid.field r i) = .symbol := by
      rintro r ⟨hr, hkind⟩
      refine ⟨?_, wf.ne_absent hr, fun i hi => ?_⟩
      · have := wf.lt_top hr
        omega
      · have hi' : i ∈ k.memory.referenceFields r := by simpa only [referenceFields, hkind] using hi
        rw [Heap.field, (hm.sameBody wf hr).reference hi']
        refine (wf.reference r hr i hi').imp_right fun hmem => ?_
        obtain ⟨hlt, hsymbol⟩ := (ho.links r hr hkind i hi).resolve_left (wf.ne_absent hmem)
        exact ⟨hlt, hmem, hsymbol⟩
    have hfuel : mid.top ≤ k.symbols + mid.capacity := Nat.le_add_left_of_le wf'.top_le
    obtain ⟨last, side, ⟨hlast, hkind⟩, hside, habs, hlink⟩ := @symbolLink_ends _ name _ hinside
      mid.capacity _ none ⟨wf.symbols.resolve_left hne, ho.table hne⟩ hfuel
    rw [hlink] at hrun
    obtain rfl := HeapM.setField_eq_ok hrun
    have hlast' : last ∈ mid.records := hrecords ▸ List.mem_append_left _ hlast
    have hnew : k.top ∈ mid.records := hrecords ▸ List.mem_append_right _ (List.mem_singleton_self _)
    have hkind' : mid.memory.kind last = .symbol := (hm.sameBody wf hlast).kind.trans hkind
    have hfields : mid.memory.referenceFields last = [0, 1] := by
      simp only [referenceFields, hkind']
    have hupdates := wf'.updates (t := k.top) hlast' (by simp [hkind']) (Or.inl (hfields ▸ hside))
      (fun _ => hnew) wf.top_lt
    have hcontent : mid.content last = .symbol (mid.field last 0) (mid.field last 1)
        (mid.field last 2) (mid.nameBytes last) := by
      simp only [content, Heap.kind, hkind']
    have hother : last ≠ k.top := Nat.ne_of_lt (wf.lt_top hlast)
    rw [hcontent] at hupdates
    simp only [List.mem_cons, List.not_mem_nil, or_false] at hside
    rcases hside with rfl | rfl
    · exact .left hother (habs ▸ hcontent) hupdates
    · exact .right hother (habs ▸ hcontent) hupdates

/-- Interning a new name adds its symbol, and one link leads to it. -/
theorem HeapM.extends_intern {name : String} (hs : h.Filled) (ho : h.SymbolsOrdered)
    (hnew : h.findSymbol name.toUTF8.toList = none) (hrun : HeapM.intern name h = .ok r g) :
    ∃ kept place mid, h.Extends [] h.roots.size kept place
        [(r, .symbol absent absent (Text.digest name.toUTF8.toList) name.toUTF8.toList)] mid ∧
      mid.Joins r g := by
  unfold HeapM.intern HeapM.internWith at hrun
  generalize name.toUTF8.toList = bytes at hnew hrun ⊢
  rw [HeapM.get_bind, hnew] at hrun
  obtain ⟨hsize, hrun⟩ := HeapM.checkSize_bind_ok hrun
  rw [HeapM.reserve_bind [absent, absent, Text.digest bytes, bytes.length] bytes] at hrun
  rotate_left
  · exact fun _ _ => rfl
  obtain ⟨_, live, place, k, -, hr, -, ⟨-, hok, hfit⟩ | ⟨-, -, herror⟩⟩ :=
    HeapM.room_spec (symbolSize bytes.length) hs.toWellFormed
      (Nat.lt_of_lt_of_le hs.nonempty hs.top_le) HeapM.mem_empty
  · rw [HeapM.bind_ok hok, HeapM.put_bind] at hrun
    have hshape := Shape.symbol (Text.digest bytes) bytes hsize
    have hm := k.placed hshape hfit
    generalize k.written .symbol [absent, absent, Text.digest bytes, bytes.length] bytes = m
      at hm hrun
    have hfields := (hshape.layout _ _ _ hm.written).2
    have hlead : ∀ i ∈ m.referenceFields k.top,
        m.field k.top i = absent ∨ m.field k.top i ∈ k.records := by
      intro i hi
      rw [hfields] at hi
      simp only [List.mem_cons, List.not_mem_nil, or_false] at hi
      rcases hi with rfl | rfl <;> exact Or.inl (hm.written.word rfl (by decide))
    have he : h.Extends [] h.roots.size live (follow place) _ _ :=
      hr.extends_placed hs.toWellFormed (fun _ hx => nomatch hx) hm hlead
    have hlength : bytes.length < 4294967296 := by
      simp only [symbolSize, fieldsSize, maxSize] at hsize
      omega
    have hcontent := content_symbol (Text.digest_lt bytes) hlength
      (h := { k with memory := m, top := k.top + symbolSize bytes.length }) hm.written
    rw [hcontent] at he
    obtain ⟨_, g', hattach, hpure⟩ := HeapM.exists_of_bind hrun
    cases hpure
    have hjoins : { k with memory := m, top := k.top + symbolSize bytes.length }.Joins k.top g :=
      Placed.joins hm hr.wellFormed (ho.relocate hs.toWellFormed hr) he.wellFormed rfl hattach
    exact ⟨live, follow place, _, he, hjoins⟩
  · rw [HeapM.bind_error herror] at hrun
    cases hrun

/-- The heap refines a store of typed objects: what a constructor returns is new and holds what it
was given, what a list of roots adds is one pair for each of them, interning a new name adds its
symbol and writes one link, and an update changes one field of one object. Nothing else that can be
reached changes, except for where it is. -/
theorem heap_refines_store (h : Heap) (hs : h.Filled) :
    (∀ c : Construction, c.Valid h → ∀ r g, c.run h = .ok r g →
      ∃ kept place, h.Extends c.refs (c.height h) kept place [(r, (c.content h).map place)] g) ∧
    (∀ base tail, base ≤ h.roots.size → tail ∈ h.records →
      ∀ r g, HeapM.listFromRoots base tail h = .ok r g →
        ∃ kept place ps, ps.length = h.roots.size - base ∧ r = ps.headD (place tail) ∧
          h.Extends [tail] base kept place
            (chain ps ((h.roots.extract base h.roots.size).toList.map place) (place tail)) g) ∧
    (h.SymbolsOrdered → ∀ name, h.findSymbol name.toUTF8.toList = none →
      ∀ r g, HeapM.intern name h = .ok r g →
        ∃ kept place mid, h.Extends [] h.roots.size kept place
            [(r, .symbol absent absent (Text.digest name.toUTF8.toList) name.toUTF8.toList)] mid ∧
          mid.Joins r g) ∧
    ∀ u : Mutation, (∀ r ∈ u.refs, r ∈ h.records) → ∀ g, u.run h = .ok () g →
      ∃ content, u.Changes (h.content u.target) content ∧ h.Updates u.target content g :=
  ⟨fun _ hc _ _ hrun => Construction.extends hs hc hrun,
    fun _ _ hbase htail _ _ hrun => HeapM.extends_listFromRoots hs htail hbase hrun,
    fun ho _ hnew _ _ hrun => HeapM.extends_intern hs ho hnew hrun,
    fun _ hrefs _ hrun => Mutation.updates hs.toWellFormed hrefs hrun⟩

/-- A heap that is full of a dead string, with one pair behind it. -/
def crowded : Heap :=
  (Heap.new 0).after do
    let _ ← HeapM.makeString 51 'x'
    let pair ← HeapM.cons truth falsity
    let _ ← HeapM.pushRoot pair

/-- The pair moves to the place of the string, and the new one stands behind it. -/
theorem heap_refines_store_crowded :
    crowded.Filled ∧ (Construction.cons 233 null).Valid crowded ∧
      ∃ g, HeapM.cons 233 null crowded = .ok 33 g ∧ ∃ kept place,
        crowded.Extends [233, null] crowded.roots.size kept place
          [(33, .pair (place 233) (place null))] g ∧ place 233 = 20 := by
  have hall : crowded.WellFormed ∧ 0 < crowded.top ∧ (∀ r ∈ [233, null], r ∈ crowded.records) ∧
      crowded.roots = #[233] ∧
      (do return (← HeapM.cons 233 null, ← HeapM.root 0)).run' crowded = some (33, 20) := by
    decide +kernel
  obtain ⟨wf, hnonempty, hrefs, hroots, hok⟩ := hall
  have hs : crowded.Filled := ⟨wf, hnonempty⟩
  have hc : (Construction.cons 233 null).Valid crowded := ⟨hrefs, Nat.le_refl _, trivial⟩
  refine ⟨hs, hc, ?_⟩
  simp only [EStateM.run', EStateM.run, bind, EStateM.bind] at hok
  cases hrun : HeapM.cons 233 null crowded with
  | error fault g =>
    rw [hrun] at hok
    cases hok
  | ok r g =>
    rw [hrun] at hok
    obtain ⟨rfl, hroot⟩ := Prod.mk.inj (Option.some.inj hok)
    obtain ⟨kept, place, he⟩ := (heap_refines_store crowded hs).1 _ hc 33 g hrun
    have hmoved : g.root 0 = place 233 := by
      simp [Heap.root, he.roots, Construction.height, hroots]
    exact ⟨g, rfl, kept, place, he, hmoved.symm.trans hroot⟩

/-- A list of no roots is its tail, which is not new. -/
theorem listFromRoots_of_none :
    HeapM.listFromRoots 0 null (Heap.new 256) = .ok null (Heap.new 256) ∧
      null ∈ (Heap.new 256).records :=
  ⟨rfl, by decide +kernel⟩

end ArenaScheme
