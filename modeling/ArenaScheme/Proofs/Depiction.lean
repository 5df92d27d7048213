import ArenaScheme.Proofs.Interning
import ArenaScheme.Proofs.Lexical
import ArenaScheme.Proofs.TypedStore
import ArenaScheme.Proofs.Variables

/-! A heap that depicts a store. Each thing that still matters has a record, wherever that stands at
the moment. Moving records changes where things stand and nothing else; the other steps of a heap add
a thing or change the value of a variable. -/

namespace ArenaScheme

open Memory Heap

variable {change : (Nat → Option Nat) → Nat → Option Nat} {roots : Array Ref} {item : Item}
  {slots' : List Nat} {i n s v : Nat} {place : Nat → Nat} {pos' : Nat → Nat → Prop}
  {kept : Nat → Prop} {x y : Option Nat} {B : Store} {name : String}

/-- What a record holds is what the item says, if `pos` says where things stand. -/
inductive Item.Resembles (pos : Nat → Nat → Prop) : Item → Content → Prop
  | pair {car cdr a d : Nat} : pos car a → pos cdr d → Resembles pos (.pair car cdr) (.pair a d)
  | integer (value : Int) : Resembles pos (.integer value) (.integer value)
  | float (bits : UInt64) : Resembles pos (.float bits) (.float bits)
  | char (code : Nat) : Resembles pos (.char (charOfCode code)) (.char code)
  | string (codes : List Nat) : Resembles pos (.string (codes.map charOfCode)) (.string codes)
  | vector {elements refs : List Nat} : List.Forall₂ pos elements refs →
    Resembles pos (.vector elements) (.vector refs)
  | builtin {name r : Nat} (index : Nat) : pos name r →
    Resembles pos (.builtin name index) (.builtin r index)
  | closure {c d : Closure} : c.Alike pos d → Resembles pos (.closure c) (.closure d)
  | tagged {marker value a b : Nat} : pos marker a → pos value b →
    Resembles pos (.tagged marker value) (.tagged a b)

/-- The record at `r` is what the item says. Nothing shows of a binding but that it is one. -/
inductive Item.At (pos : Nat → Nat → Prop) (h : Heap) (r : Nat) : Item → Prop
  | symbol {name : String} : h.memory.kind r = .symbol → h.nameBytes r = name.toUTF8.toList →
    At pos h r (.symbol name)
  | frame {outer : Option Nat} {vars : Nat → Option Nat} : h.memory.kind r = .environment →
    ((outer = none ∧ h.memory.field r 0 = absent) ∨
      ∃ o, outer = some o ∧ pos o (h.memory.field r 0)) →
    (∀ s t, pos s t → Option.Rel pos (vars s) (h.bound r t)) → At pos h r (.frame outer vars)
  | data {item : Item} : item.Resembles pos (h.content r) → At pos h r item
  | singleton {kind : Kind} : (r, kind) ∈ fixtures → At pos h r (.singleton kind)
  | binding : h.memory.kind r = .binding → At pos h r (.singleton .binding)

/-- What the thing number `i` of `n` is made of. Outer frames and the parts of tagged values are
older. -/
def Item.Closed (i n : Nat) : Item → Prop
  | frame outer vars => (∀ o ∈ outer, o < i) ∧ ∀ s v, vars s = some v → s < n ∧ v < n
  | pair car cdr => car < n ∧ cdr < n
  | vector elements => ∀ x ∈ elements, x < n
  | builtin name _ => name < n
  | closure c => c.name < n ∧ c.formals < n ∧ c.env < n ∧ c.body < n
  | tagged marker value => marker < i ∧ value < i
  | singleton kind => kind ≠ .environment
  | _ => True

theorem Item.Closed.mono {m : Nat} (hclosed : item.Closed i n) (hle : n ≤ m) : item.Closed i m := by
  cases item with
  | frame outer vars =>
    exact ⟨hclosed.1, fun s v hv => ⟨Nat.lt_of_lt_of_le (hclosed.2 s v hv).1 hle,
      Nat.lt_of_lt_of_le (hclosed.2 s v hv).2 hle⟩⟩
  | pair car cdr =>
    exact ⟨Nat.lt_of_lt_of_le hclosed.1 hle, Nat.lt_of_lt_of_le hclosed.2 hle⟩
  | vector elements => exact fun x hx => Nat.lt_of_lt_of_le (hclosed x hx) hle
  | builtin name index => exact Nat.lt_of_lt_of_le hclosed hle
  | closure c =>
    exact ⟨Nat.lt_of_lt_of_le hclosed.1 hle, Nat.lt_of_lt_of_le hclosed.2.1 hle,
      Nat.lt_of_lt_of_le hclosed.2.2.1 hle, Nat.lt_of_lt_of_le hclosed.2.2.2 hle⟩
  | tagged _ _ | singleton _ => exact hclosed
  | symbol _ | integer _ | float _ | char _ | string _ => trivial

theorem Item.Closed.mapVars (hclosed : item.Closed i n)
    (hchange : ∀ vars s v, change vars s = some v → vars s = some v ∨ (s < n ∧ v < n)) :
    (item.mapVars change).Closed i n := by
  cases item with
  | frame outer vars =>
    exact ⟨hclosed.1, fun s v hv => (hchange vars s v hv).elim (hclosed.2 s v) id⟩
  | _ => exact hclosed

/-- What is known of a heap besides the things it depicts. -/
structure Ground where
  /-- Whether all frames are in order. If not, those are that are depicted. -/
  strict : Bool
  /-- Where things stay. -/
  anchored : Nat → Nat → Prop

/-- Where the frames are not in order, any record may be bound. -/
def Ground.rules (ground : Ground) : Rules := ⟨false, if ground.strict then none else some absent⟩

/-- The frames that have a place are in order, and where all have to be, all others too. -/
abbrev Ground.Ranged (ground : Ground) (pos : Nat → Nat → Prop) (h : Heap) : Prop :=
  h.Ranged (ground.strict = true) fun f => ground.strict = true ∨ ∃ i, pos i f

/-- The heap `h` depicts the things of `A` that it has a place for, among them all symbols and what
the slots hold. -/
structure Depicts (ground : Ground) (A : Store) (slots : List Nat) (pos : Nat → Nat → Prop)
    (h : Heap) : Prop where
  sound : h.Sound ground.rules
  ranged : ground.Ranged pos h
  closed : ∀ {i : Nat} {item : Item}, A.items[i]? = some item → item.Closed i A.items.length
  functional : ∀ {i r s}, pos i r → pos i s → r = s
  injective : ∀ {i j r}, pos i r → pos j r → i = j
  mem : ∀ {i r}, pos i r → r ∈ h.records
  item : ∀ {i r}, pos i r → ∃ item, A.items[i]? = some item ∧ item.At pos h r
  slots : List.Forall₂ pos slots h.roots.toList
  null : pos 0 null
  symbol : ∀ r ∈ h.records, h.memory.kind r = .symbol → ∃ i, pos i r
  placed : ∀ {i : Nat} {name : String}, A.items[i]? = some (.symbol name) → ∃ r, pos i r

/-- What closures close over is a frame. -/
def Store.Captured (A : Store) : Prop :=
  ∀ (i : Nat) (c : Closure), A.items[i]? = some (.closure c) → (A.item c.env).kind = .environment

/-- The heap depicts `A`, and the things that stay somewhere are pinned there. -/
structure Portrays (ground : Ground) (A : Store) (slots : List Nat)
    (pos : Nat → Nat → Prop) (h : Heap) : Prop extends Depicts ground A slots pos h where
  stays : ∀ {i r}, ground.anchored i r → pos i r
  pinned : ∀ {i r}, ground.anchored i r → h.memory.isPinned r = true
  captured : A.Captured

def Heap.Represents (ground : Ground) (h : Heap) (A : Store) (slots : List Nat) : Prop :=
  ∃ pos, Portrays ground A slots pos h

/-! What an item depends on. -/

namespace Item.Resembles

variable {pos pos' : Nat → Nat → Prop} {item : Item} {c : Content}

/-- The same contents somewhere else. -/
theorem map {f : Ref → Ref} (hres : item.Resembles pos c)
    (hf : ∀ i, ∀ r ∈ c.references, pos i r → pos' i (f r)) : item.Resembles pos' (c.map f) := by
  cases hres with
  | pair ha hd => exact .pair (hf _ _ (.head _) ha) (hf _ _ (.tail _ (.head _)) hd)
  | integer value => exact .integer value
  | float bits => exact .float bits
  | char code => exact .char code
  | string codes => exact .string codes
  | @vector elements refs hall =>
    refine .vector ?_
    change ∀ i, ∀ r ∈ refs, _ at hf
    induction hall with
    | nil => exact .nil
    | cons hpos _ ih =>
      exact .cons (hf _ _ (.head _) hpos) (ih fun i r hr => hf i r (.tail _ hr))
  | builtin index hname => exact .builtin index (hf _ _ (.head _) hname)
  | closure hc =>
    exact .closure ⟨hf _ _ (.head _) hc.name, hf _ _ (.tail _ (.head _)) hc.formals,
      hf _ _ (.tail _ (.tail _ (.head _))) hc.env,
      hf _ _ (.tail _ (.tail _ (.tail _ (.head _)))) hc.body, hc.arity, hc.rest⟩
  | tagged hm hv => exact .tagged (hf _ _ (.head _) hm) (hf _ _ (.tail _ (.head _)) hv)

theorem mono (hres : item.Resembles pos c)
    (hpos : ∀ i, ∀ r ∈ c.references, pos i r → pos' i r) : item.Resembles pos' c := by
  have hmap := hres.map (f := id) hpos
  rwa [Content.map_id] at hmap

theorem kind_eq {h : Heap} {r : Nat} (hres : item.Resembles pos (h.content r)) :
    h.memory.kind r = item.kind := by
  generalize hc : h.content r = c at hres
  unfold Heap.content Heap.kind at hc
  cases hk : h.memory.kind r <;> rw [hk] at hc <;> subst hc <;> cases hres <;> rfl

theorem mapVars (hres : item.Resembles pos c) (change : (Nat → Option Nat) → Nat → Option Nat) :
    item.mapVars change = item := by
  cases hres <;> rfl

/-- All that an item is made of is there. -/
theorem restrict (hres : item.Resembles pos c) (hclosed : item.Closed i n) (hlt : i < n) :
    item.Resembles (fun j r => j < n ∧ pos j r) c := by
  cases hres with
  | pair ha hd => exact .pair ⟨hclosed.1, ha⟩ ⟨hclosed.2, hd⟩
  | integer value => exact .integer value
  | float bits => exact .float bits
  | char code => exact .char code
  | string codes => exact .string codes
  | vector hall => exact .vector ((List.forall₂_and_left _ _).mpr ⟨hclosed, hall⟩)
  | builtin index hname => exact .builtin index ⟨hclosed, hname⟩
  | closure hc =>
    exact .closure ⟨⟨hclosed.1, hc.name⟩, ⟨hclosed.2.1, hc.formals⟩, ⟨hclosed.2.2.1, hc.env⟩,
      ⟨hclosed.2.2.2, hc.body⟩, hc.arity, hc.rest⟩
  | tagged hm hv =>
    exact .tagged ⟨Nat.lt_trans hclosed.1 hlt, hm⟩ ⟨Nat.lt_trans hclosed.2 hlt, hv⟩

end Item.Resembles

namespace Heap

variable {rules : Rules} {h g k : Heap} {pos : Nat → Nat → Prop} {r : Nat} {item : Item}

/-- `g` has all things of `h`, but for the links of trees and the values of variables. -/
structure KeepsItems (h g : Heap) : Prop where
  mem : ∀ r ∈ h.records, r ∈ g.records
  kind : ∀ r ∈ h.records, g.memory.kind r = h.memory.kind r
  name : ∀ s ∈ h.records, h.memory.kind s = .symbol → g.nameBytes s = h.nameBytes s
  outer : ∀ f ∈ h.records, h.memory.kind f = .environment →
    g.memory.field f 0 = h.memory.field f 0
  same : ∀ r ∈ h.records, (h.memory.kind r).inTrees = false → Matches Eq h.memory r g.memory r
  pinned : ∀ r ∈ h.records, g.memory.isPinned r = h.memory.isPinned r

theorem KeepsScopes.keepsItems (hkeeps : KeepsScopes h g)
    (hsame : ∀ r ∈ h.records, (h.memory.kind r).inTrees = false →
      Matches Eq h.memory r g.memory r)
    (hpinned : ∀ r ∈ h.records, g.memory.isPinned r = h.memory.isPinned r) : KeepsItems h g where
  mem := hkeeps.mem
  kind := hkeeps.kind
  name s hs hk := (hkeeps.symbol s hs hk).2
  outer f hf hk := hkeeps.frame f hf hk 0 (by decide)
  same := hsame
  pinned := hpinned

/-- Where the things that `pos` places are after a move. -/
def moved (pos : Nat → Nat → Prop) (kept : Nat → Prop) (place : Nat → Nat) (i t : Nat) : Prop :=
  ∃ r, pos i r ∧ Goes kept place r t

/-- Where things are once there is one more, number `n` at `t`. -/
def joined (pos : Nat → Nat → Prop) (n t : Nat) (i r : Nat) : Prop := pos i r ∨ (i = n ∧ r = t)

theorem option_mono (hrel : Option.Rel pos x y) (hpos : ∀ {i r}, i ∈ x → pos i r → pos' i r) :
    Option.Rel pos' x y := by
  cases hrel with
  | none => exact .none
  | some hv => exact .some (hpos rfl hv)

theorem moved_option (hrel : Option.Rel pos x y) (hkept : ∀ v ∈ y, kept v) :
    Option.Rel (moved pos kept place) x (y.map place) := by
  cases hrel with
  | none => exact .none
  | some hv => exact .some ⟨_, hv, hkept _ rfl, rfl⟩

end Heap

theorem Item.mapVars_id (item : Item) : item.mapVars (fun vars => vars) = item := by
  cases item <;> rfl

theorem Item.mapVars_eq_symbol (heq : item.mapVars change = .symbol name) :
    item = .symbol name := by
  cases item with
  | frame outer vars => cases heq
  | _ => exact heq

namespace Item.At

variable {rules : Rules} {h g : Heap} {pos : Nat → Nat → Prop} {r : Nat} {item : Item}

section

variable (hat : item.At pos h r) (hs : h.Sound rules)
include hat hs

theorem kind : h.memory.kind r = item.kind := by
  cases hat with
  | symbol hk _ | frame hk _ _ | binding hk => exact hk
  | data hres => exact hres.kind_eq
  | singleton hmem => exact (hs.fixture _ hmem).2.1

theorem eq_symbol (hk : h.memory.kind r = .symbol) :
    ∃ name, item = .symbol name ∧ h.nameBytes r = name.toUTF8.toList := by
  have hkind := (hat.kind hs).symm.trans hk
  cases hat with
  | symbol _ hname => exact ⟨_, rfl, hname⟩
  | frame _ _ _ | binding _ => cases hkind
  | data hres =>
    generalize h.content r = c at hres
    cases hres <;> cases hkind
  | singleton hmem =>
    cases hkind
    exact absurd hmem (by simp [fixtures])

theorem eq_frame (hk : h.memory.kind r = .environment) : ∃ outer vars, item = .frame outer vars ∧
      ((outer = none ∧ h.memory.field r 0 = absent) ∨
        ∃ o, outer = some o ∧ pos o (h.memory.field r 0)) ∧
      ∀ s t, pos s t → Option.Rel pos (vars s) (h.bound r t) := by
  have hkind := (hat.kind hs).symm.trans hk
  cases hat with
  | frame _ houter hvars => exact ⟨_, _, rfl, houter, hvars⟩
  | symbol _ _ | binding _ => cases hkind
  | data hres =>
    generalize h.content r = c at hres
    cases hres <;> cases hkind
  | singleton hmem =>
    cases hkind
    exact absurd hmem (by simp [fixtures])

theorem eq_pair (hk : h.memory.kind r = .pair) :
    ∃ car cdr, item = .pair car cdr ∧ pos car (h.memory.field r 0) ∧
      pos cdr (h.memory.field r 1) := by
  have hkind := (hat.kind hs).symm.trans hk
  cases hat with
  | data hres =>
    have hc : h.content r = .pair (h.memory.field r 0) (h.memory.field r 1) := by
      simp only [Heap.content, Heap.kind, hk]
      rfl
    rw [hc] at hres
    cases hres with
    | pair hcar hcdr => exact ⟨_, _, rfl, hcar, hcdr⟩
  | symbol _ _ | frame _ _ _ | binding _ => cases hkind
  | singleton hmem =>
    cases hkind
    exact absurd hmem (by simp [fixtures])

/-- A kept record is what it was, somewhere else. -/
theorem move {all : Prop} {shown : Nat → Prop} (ht : h.Ranged all shown) (hshown : shown r)
    (hr : h.Relocation kept place g) (hkept : kept r) (hmem : ∀ {i r}, pos i r → r ∈ h.records) :
    item.At (moved pos kept place) g (place r) := by
  have hmatch := hr.record r hkept
  have hfield : ∀ {i k}, k ∈ h.memory.referenceFields r → pos i (h.memory.field r k) →
      moved pos kept place i (g.memory.field (place r) k) := fun {i k} hk hpos => by
    obtain ⟨hkept', heq⟩ := hr.kept_field hs.wf hkept hk (hmem hpos)
    exact ⟨_, hpos, hkept', heq.symm⟩
  cases hat with
  | symbol hk hname => exact .symbol (hmatch.kind.trans hk) ((hmatch.nameBytes hk).trans hname)
  | frame hk houter hvars =>
    have hzero : 0 ∈ h.memory.referenceFields r := by rw [environment_references hk]; decide
    refine .frame (hmatch.kind.trans hk) ?_ ?_
    · rcases houter with ⟨rfl, habs⟩ | ⟨o, rfl, ho⟩
      · refine Or.inl ⟨rfl, ?_⟩
        rcases hmatch.reference 0 hzero with ⟨-, habs'⟩ | ⟨hkept', -⟩
        · exact habs'
        · exact absurd habs (hs.wf.ne_absent (hr.mem _ hkept'))
      · exact Or.inr ⟨o, rfl, hfield hzero ho⟩
    · rintro s _ ⟨t, hst, hkeptt, rfl⟩
      obtain ⟨hbound, hvalues⟩ := ht.bound_relocate hs hr hkept hk hshown hkeptt
      rw [hbound]
      exact moved_option (hvars s t hst) hvalues
  | data hres =>
    refine .data ?_
    rw [hr.content hs.wf hkept]
    refine hres.map fun i t ht hpos => ?_
    rw [references_content] at ht
    obtain ⟨k, hk, rfl⟩ := List.mem_map.mp ht
    obtain ⟨hkept', -⟩ := hr.kept_field hs.wf hkept hk (hmem hpos)
    exact ⟨_, hpos, hkept', (hr.follow_eq hs.wf hkept').symm⟩
  | singleton hmem =>
    obtain ⟨hrecord, -, hpin⟩ := hs.fixture _ hmem
    rw [hs.place_pinned hr hrecord hpin]
    exact .singleton hmem
  | binding hk => exact .binding (hmatch.kind.trans hk)

end

/-- A record in a heap that keeps all things, if its variables are as they should. -/
theorem keep (pos' : Nat → Nat → Prop) (change : (Nat → Option Nat) → Nat → Option Nat)
    (hat : item.At pos h r) (hkeeps : KeepsItems h g) (hr : r ∈ h.records)
    (hpos : ∀ {i r}, pos i r → pos' i r)
    (hvars : ∀ outer vars, item = .frame outer vars → h.memory.kind r = .environment →
      (∀ s t, pos s t → Option.Rel pos (vars s) (h.bound r t)) →
      ∀ s t, pos' s t → Option.Rel pos' (change vars s) (g.bound r t)) :
    (item.mapVars change).At pos' g r := by
  have hkind := hkeeps.kind r hr
  cases hat with
  | symbol hk hname => exact .symbol (hkind.trans hk) ((hkeeps.name r hr hk).trans hname)
  | frame hk houter hold =>
    refine .frame (hkind.trans hk) ?_ (hvars _ _ rfl hk hold)
    rw [hkeeps.outer r hr hk]
    exact houter.imp_right fun ⟨o, heq, ho⟩ => ⟨o, heq, hpos ho⟩
  | data hres =>
    have hplain : (h.memory.kind r).inTrees = false := by
      rw [hres.kind_eq]
      generalize h.content r = c at hres
      cases hres <;> rfl
    rw [hres.mapVars]
    refine .data ?_
    rw [content_of_same (hkeeps.same r hr hplain)]
    exact hres.mono fun _ _ _ => hpos
  | singleton hmem => exact .singleton hmem
  | binding hk => exact .binding (hkind.trans hk)

/-- A record whose variables stay as they are. -/
theorem keep_same (hat : item.At pos h r) (hkeeps : KeepsItems h g) (hr : r ∈ h.records)
    (hbound : h.memory.kind r = .environment → ∀ t, g.bound r t = h.bound r t) :
    item.At pos g r := by
  have hkept := hat.keep pos (fun vars => vars) hkeeps hr (fun hpos => hpos)
    fun _ _ _ hk hold s t hst => by
      rw [hbound hk]
      exact hold s t hst
  rwa [mapVars_id] at hkept

end Item.At

theorem Store.items_setVar (A : Store) (f s v i : Nat) :
    (A.setVar f s v).items[i]? = A.items[i]?.map fun item => if f = i then
      item.mapVars fun vars t => if t = s then some v else vars t else item :=
  List.getElem?_modify _ f A.items i

theorem Store.symbol_setVar {A : Store} {f : Nat}
    (hi : (A.setVar f s v).items[i]? = some (.symbol name)) :
    A.items[i]? = some (.symbol name) := by
  rw [items_setVar, Option.map_eq_some_iff] at hi
  obtain ⟨old, hold, heq⟩ := hi
  split at heq
  · rw [hold, Item.mapVars_eq_symbol heq]
  · rw [hold, heq]

/-! How a heap goes on to depict a store. -/

theorem exists_of_forall₂ {pos : Nat → Nat → Prop} {is rs : List Nat}
    (hall : List.Forall₂ pos is rs) : ∀ r ∈ rs, ∃ i, pos i r := by
  induction hall with
  | nil => exact fun r hr => absurd hr List.not_mem_nil
  | cons hpos _ ih => exact List.forall_mem_cons.mpr ⟨⟨_, hpos⟩, ih⟩

namespace Depicts

variable {ground : Ground} {A : Store} {slots : List Nat} {pos : Nat → Nat → Prop} {h g : Heap}
  {i r : Nat}
  {item : Item}

section

variable (hd : Depicts ground A slots pos h)
include hd

theorem lt (hi : pos i r) : i < A.items.length := by
  obtain ⟨item, hitem, -⟩ := hd.item hi
  exact (List.getElem?_eq_some_iff.mp hitem).1

theorem length : h.roots.size = slots.length :=
  hd.slots.length_eq.symm

theorem item_at (hi : pos i r) : (A.item i).At pos h r := by
  obtain ⟨item, hitem, hat⟩ := hd.item hi
  rwa [Store.item, hitem]

/-- A frame that is shown is not the one that may bind any record. -/
theorem table_ne (hi : pos i r) : ground.rules.table ≠ some r := by
  unfold Ground.rules
  split
  · simp
  · exact fun heq => hd.sound.wf.ne_absent (hd.mem hi) (Option.some.inj heq).symm

theorem kind (hi : pos i r) : (A.item i).kind = h.memory.kind r :=
  ((hd.item_at hi).kind hd.sound).symm

theorem slot (s : Slot) : pos (slots[s]?.getD 0) (h.root s) := by
  have hslots := hd.slots
  have hnull := hd.null
  unfold Heap.root
  rw [← Array.getElem?_toList]
  generalize h.roots.toList = roots at hslots
  clear hd
  induction hslots generalizing s with
  | nil => exact hnull
  | cons hpos _ ih =>
    cases s with
    | zero => exact hpos
    | succ s => exact ih s

/-- Moving records leaves all things as they are. -/
theorem relocate (hr : h.Relocation kept place g) :
    Depicts ground A slots (moved pos kept place) g where
  sound := hd.sound.relocate hr
  ranged := hd.ranged.relocate hd.sound hr fun f hkept => Or.imp_right fun ⟨i, p, hi, hkept', heq⟩ =>
    ⟨i, hr.injective hkept' hkept heq ▸ hi⟩
  closed := hd.closed
  functional := by
    rintro i _ _ ⟨r, hi, -, rfl⟩ ⟨s, hi', -, rfl⟩
    rw [hd.functional hi hi']
  injective := by
    rintro i j _ ⟨r, hi, hkept, rfl⟩ ⟨s, hj, hkept', heq⟩
    rw [hr.injective hkept' hkept heq] at hj
    exact hd.injective hi hj
  mem := by
    rintro i _ ⟨r, -, hkept, rfl⟩
    exact hr.mem_records hkept
  item := by
    rintro i _ ⟨r, hi, hkept, rfl⟩
    obtain ⟨item, hitem, hat⟩ := hd.item hi
    exact ⟨item, hitem, hat.move hd.sound hd.ranged (Or.inr ⟨i, hi⟩) hr hkept hd.mem⟩
  slots := by
    have hkept : ∀ r ∈ h.roots.toList, kept r := fun r hmem =>
      hr.root r (Array.mem_toList_iff.mp hmem)
    have hslots := hd.slots
    rw [hr.roots, Array.toList_map]
    generalize h.roots.toList = roots at hkept hslots
    clear hd
    induction hslots with
    | nil => exact .nil
    | cons hpos _ ih =>
      exact .cons ⟨_, hpos, hkept _ List.mem_cons_self, rfl⟩ (ih fun r hmem =>
        hkept r (List.mem_cons_of_mem _ hmem))
  null := by
    obtain ⟨hmem, -, hpin⟩ := hd.sound.fixture (Heap.null, .null) (by decide)
    exact ⟨Heap.null, hd.null, hr.pinned _ hmem hpin, hd.sound.place_pinned hr hmem hpin⟩
  symbol := by
    intro s hs hk
    obtain ⟨r, hkept, rfl⟩ := (hr.records s).mp hs
    obtain ⟨i, hi⟩ := hd.symbol r (hr.mem r hkept) ((hr.record r hkept).kind.symm.trans hk)
    exact ⟨i, r, hi, hkept, rfl⟩
  placed := by
    intro i name hitem
    obtain ⟨r, hi⟩ := hd.placed hitem
    obtain ⟨item, hitem', hat⟩ := hd.item hi
    rw [hitem] at hitem'
    cases hitem'
    obtain ⟨rs, htable⟩ := hd.ranged.table
    have hmem := (htable.mem_iff r).mpr ⟨hd.mem hi, hat.kind hd.sound⟩
    exact ⟨_, r, hi, (htable.relocate hd.sound hr).2 r hmem, rfl⟩

/-- Other slots for things that have a place. -/
theorem withRoots (hroots : List.Forall₂ pos slots' roots.toList) :
    Depicts ground A slots' pos { h with roots } := by
  have hmem : ∀ r ∈ roots, r ∈ h.records := fun r hr => by
    obtain ⟨i, hi⟩ := exists_of_forall₂ hroots r (Array.mem_toList_iff.mpr hr)
    exact hd.mem hi
  have hs := hd.sound.withRoots roots hmem
  have hkeeps : KeepsScopes h { h with roots } := .of_memory rfl rfl
  have hitems : KeepsItems h { h with roots } := hkeeps.keepsItems
    (fun r _ _ => ⟨rfl, rfl, fun _ _ _ _ => rfl, fun _ _ => Or.inr rfl⟩) fun _ _ => rfl
  exact
    { hd with
      sound := hs
      ranged := hd.ranged.withRoots roots
      item := fun hi => (hd.item hi).imp fun _ hitem => ⟨hitem.1,
        hitem.2.keep_same hitems (hd.mem hi) fun hk _ =>
          hkeeps.bound hd.ranged hd.sound hs (hd.mem hi) hk (Or.inr ⟨_, hi⟩) fun _ _ _ => rfl⟩
      slots := hroots }

theorem pushRoot (hi : pos i r) :
    Depicts ground A (slots ++ [i]) pos { h with roots := h.roots.push r } :=
  hd.withRoots (by
    rw [Array.toList_push]
    exact List.rel_append hd.slots (.cons hi .nil))

theorem releaseRoots (count : Nat) :
    Depicts ground A (slots.take count) pos { h with roots := h.roots.shrink count } :=
  hd.withRoots (by
    rw [Array.toList_shrink]
    exact List.forall₂_take count hd.slots)

theorem ranged_joined (hsame : SameScopes h g) (hg : g.Sound ground.rules) (htable : g.Indexed) :
    ground.Ranged (joined pos A.items.length h.top) g :=
  hsame.ranged hd.sound hg hd.ranged htable fun _ hf => Or.imp_right fun ⟨i, hi⟩ =>
    ⟨i, hi.resolve_right fun heq => Nat.ne_of_lt (hd.sound.wf.lt_top hf) heq.2⟩

/-- A record for a new thing. -/
theorem make (hkeeps : KeepsItems h g) (hg : g.Sound ground.rules)
    (hranged : ground.Ranged (joined pos A.items.length h.top) g) (hroots : g.roots = h.roots)
    (hclosed : item.Closed A.items.length (A.items.length + 1))
    (hbound : ∀ i f, pos i f → h.memory.kind f = .environment → ∀ s, g.bound f s = h.bound f s)
    (hsymbols : ∀ r ∈ g.records, g.memory.kind r = .symbol → r ∈ h.records ∨ r = h.top)
    (hmem : h.top ∈ g.records) (hat : item.At (joined pos A.items.length h.top) g h.top) :
    Depicts ground (A.make item).2 slots (joined pos A.items.length h.top) g := by
  have hne : ∀ {i r}, pos i r → i ≠ A.items.length ∧ r ≠ h.top := fun {i r} hi =>
    ⟨Nat.ne_of_lt (hd.lt hi), Nat.ne_of_lt (hd.sound.wf.lt_top (hd.mem hi))⟩
  have hlength : (A.make item).2.items.length = A.items.length + 1 := List.length_append
  have hold : ∀ {i other}, A.items[i]? = some other → (A.make item).2.items[i]? = some other :=
    fun hi => (List.getElem?_append_left (List.getElem?_eq_some_iff.mp hi).1).trans hi
  have hlast : (A.make item).2.items[A.items.length]? = some item := List.getElem?_concat_length
  have hsplit : ∀ {i other}, (A.make item).2.items[i]? = some other →
      A.items[i]? = some other ∨ (i = A.items.length ∧ other = item) := fun {i other} hi => by
    have hlt := (List.getElem?_eq_some_iff.mp hi).1
    rw [hlength] at hlt
    rcases Nat.lt_succ_iff_lt_or_eq.mp hlt with hlt | rfl
    · exact Or.inl ((List.getElem?_append_left hlt).symm.trans hi)
    · exact Or.inr ⟨rfl, Option.some.inj (hi.symm.trans hlast)⟩
  refine ⟨hg, hranged, fun {i other} hi => ?_, ?_, ?_, ?_, ?_, ?_, Or.inl hd.null, ?_, ?_⟩
  · rw [hlength]
    rcases hsplit hi with hi | ⟨rfl, rfl⟩
    · exact (hd.closed hi).mono (Nat.le_succ _)
    · exact hclosed
  · rintro i r s (hi | ⟨rfl, rfl⟩) (hi' | ⟨heq, rfl⟩)
    · exact hd.functional hi hi'
    · exact absurd heq (hne hi).1
    · exact absurd rfl (hne hi').1
    · rfl
  · rintro i j r (hi | ⟨rfl, rfl⟩) (hj | ⟨rfl, heq⟩)
    · exact hd.injective hi hj
    · exact absurd heq (hne hi).2
    · exact absurd rfl (hne hj).2
    · rfl
  · rintro i r (hi | ⟨-, rfl⟩)
    · exact hkeeps.mem r (hd.mem hi)
    · exact hmem
  · rintro i r (hi | ⟨rfl, rfl⟩)
    · obtain ⟨other, hitem, hother⟩ := hd.item hi
      refine ⟨other, hold hitem, ?_⟩
      rw [← Item.mapVars_id other]
      refine hother.keep _ _ hkeeps (hd.mem hi) Or.inl ?_
      rintro outer vars rfl hk hvars s t (hst | ⟨rfl, rfl⟩)
      · rw [hbound i r hi hk]
        exact option_mono (hvars s t hst) fun _ => Or.inl
      · have hnew : vars A.items.length = none := Option.eq_none_iff_forall_ne_some.mpr fun v hv =>
          absurd ((hd.closed hitem).2 _ v hv).1 (Nat.lt_irrefl _)
        rw [hbound i r hi hk, hnew, hd.ranged.bound_eq_none hd.sound (hd.mem hi) hk
          (Or.inr ⟨i, hi⟩) fun hmem => Nat.lt_irrefl _ (hd.sound.wf.lt_top hmem)]
        exact .none
    · exact ⟨item, hlast, hat⟩
  · rw [hroots]
    exact hd.slots.imp fun _ _ => Or.inl
  · intro r hr hk
    rcases hsymbols r hr hk with hr' | rfl
    · obtain ⟨i, hi⟩ := hd.symbol r hr' ((hkeeps.kind r hr').symm.trans hk)
      exact ⟨i, Or.inl hi⟩
    · exact ⟨_, Or.inr ⟨rfl, rfl⟩⟩
  · intro i name hi
    rcases hsplit hi with hi | ⟨rfl, -⟩
    · exact (hd.placed hi).imp fun _ => Or.inl
    · exact ⟨_, Or.inr ⟨rfl, rfl⟩⟩

/-- Another value for a variable. -/
theorem setVar {f rf rs rv : Nat} (hkeeps : KeepsItems h g) (hg : g.Sound ground.rules)
    (hranged : ground.Ranged pos g) (hroots : g.roots = h.roots)
    (hsymbols : ∀ r ∈ g.records, g.memory.kind r = .symbol → r ∈ h.records) (hf : pos f rf)
    (hs : pos s rs) (hv : pos v rv)
    (hbound : ∀ i f', pos i f' → h.memory.kind f' = .environment → ∀ s',
      g.bound f' s' = if f' = rf ∧ s' = rs then some rv else h.bound f' s') :
    Depicts ground (A.setVar f s v) slots pos g := by
  have hlength : (A.setVar f s v).items.length = A.items.length := List.length_modify ..
  refine ⟨hg, hranged, ?_, hd.functional, hd.injective, fun hi => hkeeps.mem _ (hd.mem hi), ?_,
    hroots ▸ hd.slots, hd.null, ?_, ?_⟩
  · intro i item hi
    rw [Store.items_setVar, Option.map_eq_some_iff] at hi
    obtain ⟨old, hold, rfl⟩ := hi
    rw [hlength]
    split
    · refine (hd.closed hold).mapVars fun vars t w hw => ?_
      split at hw
      · cases hw
        exact Or.inr ⟨‹t = s› ▸ hd.lt hs, hd.lt hv⟩
      · exact Or.inl hw
    · exact hd.closed hold
  · intro i r hi
    obtain ⟨item, hold, hat⟩ := hd.item hi
    refine ⟨_, by rw [Store.items_setVar, hold]; rfl, ?_⟩
    beta_reduce
    by_cases hfi : f = i
    · subst hfi
      obtain rfl := hd.functional hf hi
      rw [if_pos rfl]
      refine hat.keep _ _ hkeeps (hd.mem hi) (fun hpos => hpos) fun _ vars _ hk hvars s' t hst => ?_
      rw [hbound f rf hi hk]
      by_cases heq : s' = s
      · subst heq
        rw [if_pos rfl, if_pos ⟨rfl, hd.functional hst hs⟩]
        exact .some hv
      · rw [if_neg heq, if_neg fun hboth : rf = rf ∧ t = rs =>
          heq (hd.injective hst (hboth.2 ▸ hs))]
        exact hvars s' t hst
    · rw [if_neg hfi]
      refine hat.keep_same hkeeps (hd.mem hi) fun hk t => ?_
      rw [hbound i r hi hk, if_neg fun hboth : r = rf ∧ t = rs =>
        hfi (hd.injective hf (hboth.1 ▸ hi))]
  · intro r hr hk
    have hr' := hsymbols r hr hk
    exact hd.symbol r hr' ((hkeeps.kind r hr').symm.trans hk)
  · exact fun hi => hd.placed (Store.symbol_setVar hi)

end

/-- Without the newer things, if no symbol is among them. -/
theorem forget (hd : Depicts ground B slots pos h)
    (hclosed : ∀ {i : Nat} {item : Item}, A.items[i]? = some item →
      item.Closed i A.items.length)
    (hitems : ∀ i < A.items.length, B.items[i]? = A.items[i]?)
    (hsymbols : ∀ {i : Nat} {name : String}, B.items[i]? = some (.symbol name) →
      i < A.items.length)
    (hpos : 0 < A.items.length) (hslots : ∀ i ∈ slots, i < A.items.length) :
    Depicts ground A slots (fun i r => i < A.items.length ∧ pos i r) h where
  sound := hd.sound
  ranged := hd.ranged.mono id fun _ => Or.imp_right fun ⟨i, hi⟩ => ⟨i, hi.2⟩
  closed := hclosed
  functional hi hi' := hd.functional hi.2 hi'.2
  injective hi hj := hd.injective hi.2 hj.2
  mem hi := hd.mem hi.2
  item := by
    rintro i r ⟨hlt, hi⟩
    obtain ⟨item, hitem, hat⟩ := hd.item hi
    rw [hitems i hlt] at hitem
    refine ⟨item, hitem, ?_⟩
    have hc := hclosed hitem
    cases hat with
    | symbol hk hname => exact .symbol hk hname
    | frame hk houter hvars =>
      refine .frame hk (houter.imp_right ?_) fun s t hst => ?_
      · rintro ⟨o, rfl, ho⟩
        exact ⟨o, rfl, Nat.lt_trans (hc.1 o rfl) hlt, ho⟩
      · exact option_mono (hvars s t hst.2) fun hv hpos => ⟨(hc.2 s _ hv).2, hpos⟩
    | data hres => exact .data (hres.restrict hc hlt)
    | singleton hmem => exact .singleton hmem
    | binding hk => exact .binding hk
  slots := (List.forall₂_and_left _ _).mpr ⟨hslots, hd.slots⟩
  null := ⟨hpos, hd.null⟩
  symbol := by
    intro r hr hk
    obtain ⟨i, hi⟩ := hd.symbol r hr hk
    obtain ⟨item, hitem, hat⟩ := hd.item hi
    obtain ⟨name, rfl, -⟩ := hat.eq_symbol hd.sound hk
    exact ⟨i, hsymbols hitem, hi⟩
  placed := by
    intro i name hi
    have hlt := (List.getElem?_eq_some_iff.mp hi).1
    exact (hd.placed ((hitems i hlt).trans hi)).imp fun r hr => ⟨hlt, hr⟩

end Depicts

namespace Store

variable {A : Store} {item : Item} {i : Nat}

theorem item_make (hi : i < A.items.length) : (A.make item).2.item i = A.item i := by
  unfold Store.item
  rw [show (A.make item).2.items[i]? = A.items[i]? from List.getElem?_append_left hi]

theorem kind_setVar (A : Store) (f s v i : Nat) :
    ((A.setVar f s v).item i).kind = (A.item i).kind := by
  unfold Store.item
  rw [items_setVar]
  cases A.items[i]? with
  | none => rfl
  | some item =>
    simp only [Option.map_some, Option.getD_some]
    split
    · cases item <;> rfl
    · rfl

theorem Captured.make (hcaptured : A.Captured)
    (hclosed : ∀ {j : Nat} {other : Item}, A.items[j]? = some other →
      other.Closed j A.items.length)
    (hitem : ∀ c, item = .closure c →
      c.env < A.items.length ∧ (A.item c.env).kind = .environment) :
    (A.make item).2.Captured := by
  intro i c hi
  change (A.items ++ [item])[i]? = _ at hi
  rcases Nat.lt_or_ge i A.items.length with hlt | hge
  · rw [List.getElem?_append_left hlt] at hi
    rw [item_make (hclosed hi).2.2.1]
    exact hcaptured i c hi
  · rw [List.getElem?_append_right hge] at hi
    obtain ⟨henv, hk⟩ := hitem c (List.mem_singleton.mp (List.mem_of_getElem? hi)).symm
    rw [item_make henv]
    exact hk

theorem Captured.setVar (hcaptured : A.Captured) (f s v : Nat) : (A.setVar f s v).Captured := by
  intro i c hi
  rw [items_setVar, Option.map_eq_some_iff] at hi
  obtain ⟨old, hold, heq⟩ := hi
  rw [kind_setVar]
  refine hcaptured i c (hold.trans (congrArg some ?_))
  split at heq
  · cases old with
    | frame outer vars => cases heq
    | _ => exact heq
  · exact heq

end Store

namespace Portrays

variable {ground : Ground} {A : Store} {slots : List Nat} {pos : Nat → Nat → Prop}
  {h g : Heap} {i r : Nat} {item : Item}

section

variable (hd : Portrays ground A slots pos h)
include hd

theorem relocate (hr : h.Relocation kept place g) :
    Portrays ground A slots (moved pos kept place) g where
  toDepicts := hd.toDepicts.relocate hr
  stays hi := by
    have hmem := hd.mem (hd.stays hi)
    exact ⟨_, hd.stays hi, hr.pinned _ hmem (hd.pinned hi),
      hd.sound.place_pinned hr hmem (hd.pinned hi)⟩
  pinned hi := by
    have hmem := hd.mem (hd.stays hi)
    have hmatch := (hr.record _ (hr.pinned _ hmem (hd.pinned hi))).pinned
    rw [hd.sound.place_pinned hr hmem (hd.pinned hi)] at hmatch
    exact hmatch.trans (hd.pinned hi)
  captured := hd.captured

theorem withRoots (hroots : List.Forall₂ pos slots' roots.toList) :
    Portrays ground A slots' pos { h with roots } :=
  ⟨hd.toDepicts.withRoots hroots, hd.stays, hd.pinned, hd.captured⟩

theorem pushRoot (hi : pos i r) :
    Portrays ground A (slots ++ [i]) pos { h with roots := h.roots.push r } :=
  ⟨hd.toDepicts.pushRoot hi, hd.stays, hd.pinned, hd.captured⟩

theorem releaseRoots (count : Nat) :
    Portrays ground A (slots.take count) pos { h with roots := h.roots.shrink count } :=
  ⟨hd.toDepicts.releaseRoots count, hd.stays, hd.pinned, hd.captured⟩

/-- A record for a new thing. -/
theorem make (hkeeps : KeepsItems h g)
    (hitem : ∀ c, item = .closure c → c.env < A.items.length ∧ (A.item c.env).kind = .environment)
    (hnew : Depicts ground (A.make item).2 slots (joined pos A.items.length h.top) g) :
    Portrays ground (A.make item).2 slots (joined pos A.items.length h.top) g :=
  ⟨hnew, fun hi => Or.inl (hd.stays hi), fun hi =>
    (hkeeps.pinned _ (hd.mem (hd.stays hi))).trans (hd.pinned hi),
    hd.captured.make hd.closed hitem⟩

/-- Another value for a variable. -/
theorem setVar {f : Nat} (hkeeps : KeepsItems h g)
    (hnew : Depicts ground (A.setVar f s v) slots pos g) :
    Portrays ground (A.setVar f s v) slots pos g :=
  ⟨hnew, hd.stays, fun hi => (hkeeps.pinned _ (hd.mem (hd.stays hi))).trans (hd.pinned hi),
    hd.captured.setVar f s v⟩

/-- Without the newer things. -/
theorem forget (hd' : Portrays ground B slots pos' g)
    (hnew : Depicts ground A slots (fun i r => i < A.items.length ∧ pos' i r) g) :
    Portrays ground A slots (fun i r => i < A.items.length ∧ pos' i r) g :=
  ⟨hnew, fun hi => ⟨hd.lt (hd.stays hi), hd'.stays hi⟩, hd'.pinned, hd.captured⟩

end

end Portrays


end ArenaScheme
