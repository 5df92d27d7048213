import ArenaScheme.Heap.Frame
import ArenaScheme.Proofs.Soundness

/-! What operations do to a heap. However long a computation is, it changes the heap in steps of
six sorts: records move, the roots change, a record is added, a field of a datum or of a binding
takes another value, a symbol joins the symbol table, a binding joins a frame. A symbol or a binding
is added and hung into its tree in one step, so that no run ends with a record outside its tree. -/

namespace ArenaScheme

open Memory Heap

variable {words : List Nat} {bytes name : List UInt8} {m : Memory}
  {frame i l size symbol value : Nat}

namespace Memory

variable {m n : Memory} {r s k t : Nat} {rs : List Nat} {link : Nat → Nat → Prop}

theorem symbol_references (h : m.kind r = .symbol) : m.referenceFields r = [0, 1] := by
  simp only [referenceFields, h]

theorem environment_references (h : m.kind r = .environment) : m.referenceFields r = [0, 1] := by
  simp only [referenceFields, h]

theorem binding_references (h : m.kind r = .binding) : m.referenceFields r = [0, 1, 2, 3] := by
  simp only [referenceFields, h]

theorem symbol_extent (h : m.kind r = .symbol) : m.extent r = 21 + m.field r 3 := by
  simp only [extent, h, symbolSize, fieldsSize]

/-- After a reference was set, each record still is what it was but for its references. -/
theorem FieldSet.matches_self {q : Nat} (h : FieldSet rs m r k t n) (hq : q ∈ rs)
    (hr : q = r → k ∈ m.referenceFields r) : Matches (fun _ _ => True) m q n q := by
  refine ⟨h.kind hq, isPinned_eq_of_byte (h.header q hq), fun i _ hi hout => ?_,
    fun _ _ => Or.inr trivial⟩
  refine h.other q hq i hi fun heq => ?_
  subst heq
  refine Decidable.byContradiction fun hin => ?_
  exact hout ⟨k, hr rfl, by omega, by omega⟩

namespace Matches

/-- Records that stand for each other have the same digest. -/
theorem digest (hm : Matches link m r n s) (hk : m.kind r = .symbol) :
    n.field s 2 = m.field r 2 :=
  hm.field (by rw [symbol_references hk]; decide) (by rw [symbol_extent hk]; omega)

/-- Records that stand for each other have the same name. -/
theorem nameBytes {h g : Heap} (hm : Matches link h.memory r g.memory s)
    (hk : h.memory.kind r = .symbol) : g.nameBytes s = h.nameBytes r := by
  have hextent := symbol_extent hk
  have hlength : g.field s 3 = h.field r 3 :=
    hm.field (by rw [symbol_references hk]; decide) (by rw [hextent]; omega)
  unfold Heap.nameBytes
  rw [hlength]
  refine List.map_congr_left fun i hi => ?_
  have hi' : i < h.memory.field r 3 := List.mem_range.mp hi
  have hbyte := hm.payload (21 + i) (by omega) (by omega) (by
    rintro ⟨l, hl, hlow, hhigh⟩
    simp only [symbol_references hk, List.mem_cons, List.not_mem_nil, or_false] at hl
    omega)
  simpa only [fieldAddress_eq, Nat.add_assoc, Nat.reduceMul, ← Nat.add_assoc 5, Nat.reduceAdd]
    using hbyte

end Matches

end Memory

namespace Heap

variable {rules : Rules} {h g : Heap} {r s k t : Nat}

theorem Pushed.matches_self {kind : Kind} (hm : h.Pushed rules kind words bytes size m)
    (wf : h.WellFormed) (hr : r ∈ h.records) : Matches Eq h.memory r m r :=
  .of_sameBody (hm.sameBody wf hr) (isPinned_eq_of_byte (hm.byte wf hr)) fun _ _ => Or.inr rfl

/-- A field that lies within a record has an address. -/
theorem Sound.fieldAddress_lt (hs : h.Sound rules) (hr : r ∈ h.records)
    (hk : 9 + 4 * k ≤ h.memory.extent r) : fieldAddress r k < addressSpace := by
  have hend := (hs.wf.tiled.bounds hr).2
  have htop := hs.wf.top_lt
  rw [fieldAddress_eq]
  unfold addressSpace
  omega

theorem Sound.looseField_eq (hs : h.Sound rules) (hr : r ∈ h.records)
    (hk : 9 + 4 * k ≤ h.memory.extent r) : h.looseField r k = h.memory.field r k :=
  h.looseField_of_lt (hs.fieldAddress_lt hr hk)

theorem Sound.nameDigest_eq (hs : h.Sound rules) (hr : r ∈ h.records)
    (hk : h.memory.kind r = .symbol) : h.nameDigest r = h.memory.field r 2 :=
  hs.looseField_eq hr (by rw [symbol_extent hk]; omega)

theorem root_mem (hi : i < h.roots.size) : h.root i ∈ h.roots := by
  simp only [Heap.root, Array.getElem?_eq_getElem hi, Option.getD_some, Array.getElem_mem]

theorem Relocation.root_eq {kept : Nat → Prop} {place : Nat → Nat} (hr : h.Relocation kept place g)
    (hi : i < h.roots.size) : g.root i = place (h.root i) := by
  simp only [Heap.root, hr.roots, Array.getElem?_map, Array.getElem?_eq_getElem hi,
    Option.map_some, Option.getD_some]

/-- A symbol whose name is not reserved. -/
structure Bindable (h : Heap) (r : Nat) : Prop where
  kind : h.memory.kind r = .symbol
  free : isReserved (Text.decode (h.nameBytes r)) = false

theorem Bindable.matched {link : Nat → Nat → Prop} (hb : h.Bindable r)
    (hm : Matches link h.memory r g.memory s) : g.Bindable s where
  kind := hm.kind.trans hb.kind
  free := hm.nameBytes hb.kind ▸ hb.free

/-- The binding hangs in the tree of the frame. -/
inductive Hangs (h : Heap) (frame : Nat) : Nat → Prop
  | root : h.memory.field frame 1 ≠ absent → Hangs h frame (h.memory.field frame 1)
  | child {b k : Nat} : Hangs h frame b → k = 2 ∨ k = 3 → h.memory.field b k ≠ absent →
    Hangs h frame (h.memory.field b k)

/-- The frame binds nothing but symbols. -/
def BindsSymbols (h : Heap) (frame : Nat) : Prop :=
  ∀ b, h.Hangs frame b → h.memory.kind (h.memory.field b 0) = .symbol

/-- `g` is `h` with the symbol at `r` hung where its name belongs. -/
inductive SymbolHung (h : Heap) (name : List UInt8) (r : Nat) : Heap → Prop
  | first : h.symbolLink name h.capacity h.symbols none = none →
    SymbolHung h name r { h with symbols := r }
  | below {node side : Nat} {m : Memory} :
    h.symbolLink name h.capacity h.symbols none = some (node, side) →
    FieldSet h.records h.memory node side r m → SymbolHung h name r { h with memory := m }

/-- `g` is `h` with a symbol for a name that had none. -/
structure SymbolAdded (rules : Rules) (h : Heap) (name : List UInt8) (g : Heap) : Prop where
  missing : h.findSymbol name = none
  text : ∃ text : String, name = text.toUTF8.toList
  added : ∃ digest m, h.Pushed rules .symbol [absent, absent, digest, name.length] name
      (symbolSize name.length) m ∧
    { h with memory := m, top := h.top + symbolSize name.length }.SymbolHung name h.top g

/-- `g` is `h` with the binding at `r` of `symbol` hung into the tree of `frame`. -/
inductive BindingHung (h : Heap) (frame symbol r : Nat) : Heap → Prop
  | below {node side : Nat} {m : Memory} :
    h.bindingLink symbol h.capacity (frame, 1) = (node, side) →
    FieldSet h.records h.memory node side r m → BindingHung h frame symbol r { h with memory := m }

/-- `g` is `h` with a new binding in a frame, of a symbol that had none there if the frame binds
symbols. -/
structure BindingAdded (rules : Rules) (h : Heap) (frame symbol value : Nat) (g : Heap) :
    Prop where
  frame_mem : frame ∈ h.records
  frame_kind : h.memory.kind frame = .environment
  symbol_mem : symbol ∈ h.records
  bindable : rules.table ≠ some frame → h.Bindable symbol
  value_mem : value ∈ h.records
  missing : h.memory.kind symbol = .symbol → h.BindsSymbols frame → h.findBinding frame symbol = none
  added : ∃ m, h.Pushed rules .binding [symbol, value, absent, absent] [] (fieldsSize 4) m ∧
    { h with memory := m, top := h.top + fieldsSize 4 }.BindingHung frame symbol h.top g

end Heap

/-- The kinds of records that hang in search trees. -/
def Kind.hangs : Kind → Bool
  | .symbol | .binding => true
  | _ => false

/-- The kinds of records that trees are made of. -/
def Kind.inTrees : Kind → Bool
  | .symbol | .binding | .environment => true
  | _ => false

/-- The data of `h` stand for data of `g`, and the symbols for symbols with the same names. -/
structure Heap.Carries (link : Nat → Nat → Prop) (h g : Heap) : Prop where
  data : ∀ r ∈ h.records, ∀ s, link r s → (h.memory.kind r).inTrees = false →
    Matches link h.memory r g.memory s
  symbol : ∀ r ∈ h.records, ∀ s, link r s → h.memory.kind r = .symbol →
    g.memory.kind s = .symbol ∧ g.nameBytes s = h.nameBytes r

/-- What a computation may do besides adding data. -/
inductive Effect where
  | intern (name : List UInt8)
  | bind
  | update
  /-- Adding a built-in procedure. -/
  | procedure (index : Nat)

namespace Heap

/-- The fields that change after they were written first, and the effect that a change is. -/
def fieldEffect (h : Heap) (r k : Nat) : Option Effect :=
  match h.memory.kind r with
  | .pair | .vector | .string => some .update
  | .binding => if k = 1 then some .bind else none
  | _ => none

/-- One step, which leaves the first `n` roots in place. -/
inductive Change (rules : Rules) (n : Nat) (may : Effect → Prop) (h : Heap) : Heap → Prop
  | move {kept : Nat → Prop} {place : Nat → Nat} {g : Heap} :
    h.Relocation kept place g → Change rules n may h g
  | roots (l : Array Ref) : (∀ r ∈ l, r ∈ h.records) → n ≤ l.size →
    (∀ i < n, l[i]?.getD null = h.root i) → Change rules n may h { h with roots := l }
  | record {kind : Kind} {words : List Nat} {bytes : List UInt8} {size : Nat} {m : Memory} :
    h.Pushed rules kind words bytes size m → kind.hangs = false →
    (kind = .builtin → ∃ index, words[1]? = some index ∧ may (.procedure index)) →
    Change rules n may h { h with memory := m, top := h.top + size }
  | field {r k t : Nat} {effect : Effect} {m : Memory} :
    r ∈ h.records → FieldSet h.records h.memory r k t m → h.fieldEffect r k = some effect →
    may effect → Change rules n may h { h with memory := m }
  | symbol {name : List UInt8} {g : Heap} :
    h.SymbolAdded rules name g → may (.intern name) → Change rules n may h g
  | binding {frame symbol value : Nat} {g : Heap} :
    h.BindingAdded rules frame symbol value g → may .bind → Change rules n may h g

/-- `g` comes out of `h` by steps through sound heaps that leave the first `n` roots in place. -/
inductive Evolves (rules : Rules) (n : Nat) (may : Effect → Prop) : Heap → Heap → Prop
  | refl {h : Heap} : h.Sound rules → n ≤ h.roots.size → Evolves rules n may h h
  | step {h k g : Heap} : h.Sound rules → n ≤ h.roots.size → h.Change rules n may k →
    Evolves rules n may k g → Evolves rules n may h g

variable {rules : Rules} {n r : Nat} {may : Effect → Prop} {h k g : Heap}

theorem Change.mono (hc : h.Change rules n may g) (hl : l ≤ n) : h.Change rules l may g := by
  cases hc with
  | move hr => exact .move hr
  | roots rs hmem hsize hroot =>
    exact .roots rs hmem (Nat.le_trans hl hsize) fun i hi => hroot i (Nat.lt_of_lt_of_le hi hl)
  | record hm hkind hmay => exact .record hm hkind hmay
  | field hr hm heffect hmay => exact .field hr hm heffect hmay
  | symbol hadded hmay => exact .symbol hadded hmay
  | binding hadded hmay => exact .binding hadded hmay

namespace Evolves

theorem sound_left (he : Evolves rules n may h g) : h.Sound rules := by
  cases he with
  | refl hs _ => exact hs
  | step hs _ _ _ => exact hs

theorem size_left (he : Evolves rules n may h g) : n ≤ h.roots.size := by
  cases he with
  | refl _ hn => exact hn
  | step _ hn _ _ => exact hn

theorem trans (he : Evolves rules n may h k) (he' : Evolves rules n may k g) :
    Evolves rules n may h g := by
  induction he with
  | refl _ _ => exact he'
  | step hs hn hc _ ih => exact .step hs hn hc (ih he')

theorem mono (he : Evolves rules n may h g) (hl : l ≤ n) : Evolves rules l may h g := by
  induction he with
  | refl hs hn => exact .refl hs (Nat.le_trans hl hn)
  | step hs hn hc _ ih => exact .step hs (Nat.le_trans hl hn) (hc.mono hl) ih

theorem of_change (hs : h.Sound rules) (hn : n ≤ h.roots.size) (hc : h.Change rules n may g)
    (hs' : g.Sound rules) (hn' : n ≤ g.roots.size) : Evolves rules n may h g :=
  .step hs hn hc (.refl hs' hn')

theorem sound_right (he : Evolves rules n may h g) : g.Sound rules := by
  induction he with
  | refl hs _ => exact hs
  | step _ _ _ _ ih => exact ih

theorem size_right (he : Evolves rules n may h g) : n ≤ g.roots.size := by
  induction he with
  | refl _ hn => exact hn
  | step _ _ _ _ ih => exact ih

end Evolves

/-! What lasts. -/

/-- A record keeps its kind and stays pinned if it was. -/
structure Lasts (h : Heap) (r : Nat) (g : Heap) : Prop where
  mem : r ∈ g.records
  pinned : g.memory.isPinned r = h.memory.isPinned r
  kind : g.memory.kind r = h.memory.kind r

theorem Lasts.trans (hl : Lasts h r k) (hl' : Lasts k r g) : Lasts h r g :=
  ⟨hl'.mem, hl'.pinned.trans hl.pinned, hl'.kind.trans hl.kind⟩

theorem Pushed.lasts {kind : Kind} (hm : h.Pushed rules kind words bytes size m) (wf : h.WellFormed)
    (hr : r ∈ h.records) : Lasts h r { h with memory := m, top := h.top + size } where
  mem := hm.records wf ▸ List.mem_append_left _ hr
  pinned := (hm.matches_self wf hr).pinned
  kind := (hm.matches_self wf hr).kind

theorem Sound.lasts_setField {x t : Nat} (hs : h.Sound rules)
    (hm : FieldSet h.records h.memory x l t m) (hr : r ∈ h.records) :
    Lasts h r { h with memory := m } where
  mem := hs.records_setField hm ▸ hr
  pinned := isPinned_eq_of_byte (hm.header r hr)
  kind := hm.kind hr

theorem SymbolAdded.lasts (ha : h.SymbolAdded rules name g) (hs : h.Sound rules)
    (hr : r ∈ h.records) : Lasts h r g := by
  obtain ⟨digest, m, hm, hhung⟩ := ha.added
  have hl := hm.lasts hs.wf hr
  cases hhung with
  | first _ => exact ⟨hl.mem, hl.pinned, hl.kind⟩
  | below _ hset => exact hl.trans ((hm.sound hs).lasts_setField hset hl.mem)

theorem SymbolAdded.roots_eq (ha : h.SymbolAdded rules name g) : g.roots = h.roots := by
  obtain ⟨digest, m, hm, hhung⟩ := ha.added
  cases hhung <;> rfl

theorem BindingAdded.lasts (ha : h.BindingAdded rules frame symbol value g) (hs : h.Sound rules)
    (hr : r ∈ h.records) : Lasts h r g := by
  obtain ⟨m, hm, ⟨_, hset⟩⟩ := ha.added
  have hl := hm.lasts hs.wf hr
  exact hl.trans ((hm.sound hs).lasts_setField hset hl.mem)

theorem BindingAdded.roots_eq (ha : h.BindingAdded rules frame symbol value g) :
    g.roots = h.roots := by
  obtain ⟨m, hm, ⟨_, hset⟩⟩ := ha.added
  rfl

/-- Pinned records last. -/
theorem Change.pinned (hc : h.Change rules n may g) (hs : h.Sound rules) (hr : r ∈ h.records)
    (hpin : h.memory.isPinned r = true) : Lasts h r g := by
  cases hc with
  | move hmove =>
    have hkept := hmove.pinned r hr hpin
    have hplace := hs.place_pinned hmove hr hpin
    have hmatch := hmove.record r hkept
    rw [hplace] at hmatch
    exact ⟨hplace ▸ hmove.mem_records hkept, hmatch.pinned, hmatch.kind⟩
  | roots _ _ _ _ => exact ⟨hr, rfl, rfl⟩
  | record hm _ _ => exact hm.lasts hs.wf hr
  | field _ hm _ _ => exact hs.lasts_setField hm hr
  | symbol hadded _ => exact hadded.lasts hs hr
  | binding hadded _ => exact hadded.lasts hs hr

theorem Change.pinning (hc : h.Change rules n may g) : g.pinning = h.pinning := by
  cases hc with
  | move hmove => exact hmove.pinning
  | roots _ _ _ _ | record _ _ _ | field _ _ _ _ => rfl
  | symbol hadded _ =>
    obtain ⟨_, _, _, hhung⟩ := hadded.added
    cases hhung <;> rfl
  | binding hadded _ =>
    obtain ⟨_, _, ⟨_, _⟩⟩ := hadded.added
    rfl

/-- The first `n` roots keep their kinds. -/
theorem Change.kind (hc : h.Change rules n may g) (hs : h.Sound rules) (hn : n ≤ h.roots.size)
    (hi : i < n) : g.memory.kind (g.root i) = h.memory.kind (h.root i) := by
  have hlt : i < h.roots.size := Nat.lt_of_lt_of_le hi hn
  have hr : h.root i ∈ h.records := hs.wf.root _ (root_mem hlt)
  cases hc with
  | move hmove => rw [hmove.root_eq hlt, (hmove.record _ (hmove.root _ (root_mem hlt))).kind]
  | roots l _ _ hroot =>
    have heq : { h with roots := l }.root i = h.root i := hroot i hi
    rw [heq]
  | record hm _ _ => exact (hm.lasts hs.wf hr).kind
  | field _ hm _ _ => exact (hs.lasts_setField hm hr).kind
  | symbol hadded _ =>
    rw [Heap.root, hadded.roots_eq]
    exact (hadded.lasts hs hr).kind
  | binding hadded _ =>
    rw [Heap.root, hadded.roots_eq]
    exact (hadded.lasts hs hr).kind

namespace Evolves

theorem pinned (he : Evolves rules n may h g) (hr : r ∈ h.records)
    (hpin : h.memory.isPinned r = true) : Lasts h r g := by
  induction he with
  | refl _ _ => exact ⟨hr, rfl, rfl⟩
  | step hs _ hc _ ih =>
    have hl := hc.pinned hs hr hpin
    exact hl.trans (ih hl.mem (hl.pinned.trans hpin))

theorem pinning (he : Evolves rules n may h g) : g.pinning = h.pinning := by
  induction he with
  | refl _ _ => rfl
  | step _ _ hc _ ih => exact ih.trans hc.pinning

theorem kind (he : Evolves rules n may h g) (hi : i < n) :
    g.memory.kind (g.root i) = h.memory.kind (h.root i) := by
  induction he with
  | refl _ _ => rfl
  | step hs hn hc _ ih => exact ih.trans (hc.kind hs hn hi)

end Evolves

end Heap

end ArenaScheme
