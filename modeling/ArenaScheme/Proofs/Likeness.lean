import ArenaScheme.Proofs.Copies
import ArenaScheme.Proofs.Depiction
import ArenaScheme.Proofs.StoreView

/-! Questions to a heap and to the store that it depicts. They have the same answers, up to where
things stand: what a value is, what its parts are, how long a list is, and how a value is written. -/

namespace ArenaScheme

open Memory Heap

variable {α β : Type} {item : Item} {view : Item → Option α} {kind : Kind}
  {fuel fuel' k marker value : Nat} {path path' : Std.TreeSet Nat} {expected : String}
  {mode : WriteMode} {post : α → β → Prop} {b : β}

theorem Item.closure?_eq (item : Item) :
    item.closure? = match item.object with
      | .closure c => some c
      | _ => none := by
  cases item with
  | singleton kind => cases kind <;> rfl
  | _ => rfl

/-- A record that is neither in a tree nor a singleton is what the item says. -/
theorem Item.At.resembles {pos : Nat → Nat → Prop} {h : Heap} {r : Nat} (hat : item.At pos h r)
    {rules : Rules} (hs : h.Sound rules)
    (hk : h.memory.kind r ∉ [.symbol, .environment, .binding, .null, .truth, .falsity, .eof]) :
    item.Resembles pos (h.content r) := by
  cases hat with
  | data hres => exact hres
  | symbol hkind _ => exact absurd (by rw [hkind]; decide) hk
  | frame hkind _ _ => exact absurd (by rw [hkind]; decide) hk
  | binding hkind => exact absurd (by rw [hkind]; decide) hk
  | singleton hmem =>
    have hplain : ∀ p ∈ fixtures,
        p.2 ∈ [Kind.symbol, .environment, .binding, .null, .truth, .falsity, .eof] := by
      decide
    exact absurd ((hs.fixture _ hmem).2.1 ▸ hplain _ hmem) hk

namespace Depicts

variable {ground : Ground} {A : Store} {slots : List Nat} {pos : Nat → Nat → Prop} {h : Heap}
  {i j r t : Nat}

section

variable (hd : Depicts ground A slots pos h) (hi : pos i r)
include hd hi

theorem eq_iff (hj : pos j t) : i = j ↔ r = t :=
  ⟨fun heq => hd.functional hi (heq ▸ hj), fun heq => hd.injective hi (heq ▸ hj)⟩

theorem eq_null_iff : i = Store.null ↔ r = Heap.null :=
  hd.eq_iff hi hd.null

theorem object :
    (A.object i).Alike pos (h.object r) := by
  have hat := hd.item_at hi
  unfold Store.object
  generalize A.item i = item at hat ⊢
  cases hat with
  | symbol hk _ =>
    unfold Heap.object Heap.kind
    rw [hk]
    exact .symbol
  | @frame outer vars hk houter _ =>
    have hobject : h.object r =
        .environment (if h.memory.field r 0 = absent then none else some (h.memory.field r 0)) := by
      unfold Heap.object Heap.kind
      rw [hk]
      rfl
    rw [hobject]
    refine .environment ?_
    rcases houter with ⟨rfl, habs⟩ | ⟨o, rfl, ho⟩
    · rw [if_pos habs]
      exact .none
    · rw [if_neg (hd.sound.wf.ne_absent (hd.mem ho))]
      exact .some ho
  | data hres =>
    rw [object_eq]
    generalize h.content r = c at hres
    cases hres with
    | pair ha hc => exact .pair ha hc
    | integer value => exact .integer value
    | float bits => exact .float bits
    | char code => exact .char _
    | string codes =>
      simp only [Item.object, Content.object, List.length_map]
      exact .string _
    | vector hall =>
      simp only [Item.object, Content.object, hall.length_eq]
      exact .vector _
    | builtin index hname => exact .builtin index hname
    | closure hc => exact .closure hc
    | tagged hm hv => exact .tagged hm hv
  | singleton hmem =>
    have hk := (hd.sound.fixture _ hmem).2.1
    unfold Heap.object Heap.kind
    rw [hk]
    simp only [fixtures, List.mem_cons, Prod.mk.injEq, List.not_mem_nil, or_false] at hmem
    rcases hmem with ⟨-, rfl⟩ | ⟨-, rfl⟩ | ⟨-, rfl⟩ | ⟨-, rfl⟩
    · exact .null
    · exact .boolean true
    · exact .boolean false
    · exact .eof
  | binding hk =>
    unfold Heap.object Heap.kind
    rw [hk]
    exact .binding

theorem typeName : A.typeName i = h.typeName r :=
  congrArg Kind.typeName (hd.kind hi)

/-- A question about records of one kind. -/
theorem ask (hview : ∀ item, item.kind ≠ kind → view item = none)
    (hsome : h.memory.kind r = kind → ∃ a, view (A.item i) = some a ∧ post a b) :
    Answers post (A.ask expected view i) (h.expectKind kind expected r >>= fun _ => pure b) := by
  unfold Store.ask Heap.expectKind
  rw [hd.typeName hi]
  by_cases hk : h.kind r = kind
  · obtain ⟨a, ha, hpost⟩ := hsome hk
    rw [ha, if_pos hk]
    exact .ok hpost
  · rw [hview (A.item i) (by rw [hd.kind hi]; exact hk), if_neg hk]
    exact .error _ rfl

/-- Questions about records that are neither in a tree nor a singleton. -/
theorem ask_data (hview : ∀ item, item.kind ≠ kind → view item = none)
    (hplain : kind ∉ [.symbol, .environment, .binding, .null, .truth, .falsity, .eof])
    (hsome : ∀ item, h.memory.kind r = kind → item.Resembles pos (h.content r) →
      ∃ a, view item = some a ∧ post a b) :
    Answers post (A.ask expected view i) (h.expectKind kind expected r >>= fun _ => pure b) :=
  hd.ask hi hview fun hk => hsome _ hk ((hd.item_at hi).resembles hd.sound (hk ▸ hplain))

theorem carOf : Answers pos (A.carOf i) (h.car r) := by
  refine hd.ask_data hi (fun item hk => by cases item <;> first | rfl | exact absurd rfl hk)
    (by decide) fun item hk hres => ?_
  unfold Heap.content Heap.kind at hres
  rw [hk] at hres
  cases hres with
  | pair hcar _ => exact ⟨_, rfl, hcar⟩

theorem cdrOf : Answers pos (A.cdrOf i) (h.cdr r) := by
  refine hd.ask_data hi (fun item hk => by cases item <;> first | rfl | exact absurd rfl hk)
    (by decide) fun item hk hres => ?_
  unfold Heap.content Heap.kind at hres
  rw [hk] at hres
  cases hres with
  | pair _ hcdr => exact ⟨_, rfl, hcdr⟩

theorem integerOf :
    Answers Eq (A.integerOf i) (h.expectInteger r) := by
  refine hd.ask_data hi (fun item hk => by cases item <;> first | rfl | exact absurd rfl hk)
    (by decide) fun item hk hres => ?_
  unfold Heap.content Heap.kind at hres
  rw [hk] at hres
  cases hres with
  | integer => exact ⟨_, rfl, rfl⟩

theorem charOf :
    Answers Eq (A.charOf i) (h.expectChar r) := by
  refine hd.ask_data hi (fun item hk => by cases item <;> first | rfl | exact absurd rfl hk)
    (by decide) fun item hk hres => ?_
  unfold Heap.content Heap.kind at hres
  rw [hk] at hres
  cases hres with
  | char => exact ⟨_, rfl, rfl⟩

theorem nameOf :
    Answers Eq (A.nameOf i) (h.symbolName r) := by
  refine hd.ask hi (fun item hk => by cases item <;> first | rfl | exact absurd rfl hk) fun hk => ?_
  obtain ⟨name, hitem, hname⟩ := (hd.item_at hi).eq_symbol hd.sound hk
  rw [hitem, hname, Text.decode_toUTF8]
  exact ⟨name, rfl, rfl⟩

end

/-- The characters of a string. -/
theorem resembles_string (hk : h.memory.kind r = .string)
    (hres : item.Resembles pos (h.content r)) :
    item.text? = some ((h.elements r).map charOfCode) := by
  unfold Heap.content Heap.kind at hres
  rw [hk] at hres
  cases hres with
  | string => rfl

theorem textOf (hd : Depicts ground A slots pos h) (hi : pos i r) :
    Answers (fun text length => text = (h.elements r).map charOfCode ∧ length = text.length)
      (A.textOf i) (h.stringLength r) :=
  hd.ask_data hi (fun item hk => by cases item <;> first | rfl | exact absurd rfl hk) (by decide)
    fun _ hk hres => ⟨_, resembles_string hk hres, rfl, by simp [Heap.elements]⟩

theorem stringValue (hd : Depicts ground A slots pos h) (hi : pos i r) :
    Answers (fun text value => value = String.ofList text) (A.textOf i) (h.stringValue r) := by
  have htext := hd.textOf hi
  unfold Heap.stringValue
  generalize A.textOf i = x at htext ⊢
  generalize h.stringLength r = y at htext ⊢
  cases htext with
  | error fault hfault => exact .error fault hfault
  | ok heq =>
    refine .ok ?_
    rw [heq.2, heq.1]
    simp [Heap.elements, Function.comp_def]

theorem code_element (f : Nat → Char) (hk : k < (h.elements r).length) :
    ((h.elements r).map f)[k]? = some (f (h.field r (1 + k))) := by
  have hlt : k < h.field r 0 := by simpa [Heap.elements] using hk
  simp [Heap.elements, hlt]

theorem stringRef (hd : Depicts ground A slots pos h) (hi : pos i r) (index : Int) :
    Answers Eq (A.stringRef i index) (h.stringRef r index) := by
  refine (hd.textOf hi).bind fun text length heq => ?_
  obtain ⟨rfl, rfl⟩ := heq
  unfold checkedIndex
  split
  · rename_i hindex
    rw [List.length_map] at hindex
    refine .ok ?_
    rw [code_element charOfCode (by omega), Option.getD_some]
  · exact .error _ rfl

theorem resembles_vector (hk : h.memory.kind r = .vector)
    (hres : item.Resembles pos (h.content r)) :
    ∃ elements, item.elements? = some elements ∧ List.Forall₂ pos elements (h.elements r) := by
  unfold Heap.content Heap.kind at hres
  rw [hk] at hres
  cases hres with
  | vector hall => exact ⟨_, rfl, hall⟩

theorem elementsOf (hd : Depicts ground A slots pos h) (hi : pos i r) :
    Answers (fun elements length => List.Forall₂ pos elements (h.elements r) ∧
      length = elements.length) (A.elementsOf i) (h.vectorLength r) :=
  hd.ask_data hi (fun item hk => by cases item <;> first | rfl | exact absurd rfl hk) (by decide)
    fun _ hk hres => (resembles_vector hk hres).imp fun _ hall =>
      ⟨hall.1, hall.2, by rw [hall.2.length_eq]; simp [Heap.elements]⟩

/-- The element at an index. -/
theorem pos_element {elements : List Nat} (hall : List.Forall₂ pos elements (h.elements r))
    (hk : k < elements.length) : pos (elements[k]?.getD Store.null) (h.field r (1 + k)) := by
  have hlt : k < h.field r 0 := by
    have := hall.length_eq
    simp only [Heap.elements, List.length_map, List.length_range] at this
    omega
  have hget := List.forall₂_iff_get.mp hall
  have hpos := hget.2 k hk (by rw [← hall.length_eq]; exact hk)
  rw [List.getElem?_eq_getElem hk, Option.getD_some]
  simpa [Heap.elements] using hpos

theorem vectorRef (hd : Depicts ground A slots pos h) (hi : pos i r) (index : Int) :
    Answers pos (A.vectorRef i index) (h.vectorRef r index) := by
  refine (hd.elementsOf hi).bind fun elements length heq => ?_
  obtain ⟨hall, rfl⟩ := heq
  unfold checkedIndex
  split
  · rename_i hindex
    refine .ok (pos_element hall ?_)
    omega
  · exact .error _ rfl

theorem closureOf (hd : Depicts ground A slots pos h) (hi : pos i r) :
    Answers (fun c d => c.Alike pos d) (A.closureOf i) (h.closureView r) := by
  have hobject := hd.object hi
  unfold Store.object at hobject
  unfold Store.closureOf Store.ask Heap.closureView
  rw [hd.typeName hi, Item.closure?_eq]
  generalize (A.item i).object = x at hobject ⊢
  generalize h.object r = y at hobject ⊢
  cases hobject with
  | closure hc => exact .ok hc
  | _ => exact .error _ rfl

theorem exactly (hd : Depicts ground A slots pos h) (n : Nat) (hi : pos i r) :
    Option.Rel (List.Forall₂ pos) (A.exactly n i) (h.exactly n r) := by
  induction n generalizing i r with
  | zero =>
    unfold Store.exactly Heap.exactly
    by_cases hnull : i = Store.null
    · rw [if_pos hnull, if_pos ((hd.eq_null_iff hi).mp hnull)]
      exact .some .nil
    · rw [if_neg hnull, if_neg fun heq => hnull ((hd.eq_null_iff hi).mpr heq)]
      exact .none
  | succ n ih =>
    have hobject := hd.object hi
    unfold Store.exactly Heap.exactly
    generalize A.object i = x at hobject ⊢
    generalize h.object r = y at hobject ⊢
    cases hobject with
    | @pair car a cdr d hcar hcdr =>
      have hrest := ih hcdr
      dsimp only
      generalize A.exactly n cdr = x at hrest ⊢
      generalize h.exactly n d = y at hrest ⊢
      cases hrest with
      | none => exact .none
      | some hall => exact .some (.cons hcar hall)
    | _ => exact .none

end Depicts

/-! Lists. -/

namespace Store

variable {A : Store} {n i : Nat}

/-- A list of `n` elements that ends in the empty list. -/
inductive IsList (A : Store) : Nat → Nat → Prop
  | null {i : Nat} : A.object i = .null → IsList A 0 i
  | pair {n i car cdr : Nat} : A.object i = .pair car cdr → IsList A n cdr → IsList A (n + 1) i

theorem lt_of_object {car cdr : Nat} (hi : A.object i = .pair car cdr) : i < A.items.length := by
  refine Nat.lt_of_not_le fun hle => ?_
  unfold object item at hi
  rw [List.getElem?_eq_none hle] at hi
  cases hi

theorem IsList.chain (hn : A.IsList n i) : Chain A.object n i := by
  induction hn with
  | null hi => exact .stop fun _ _ hi' => nomatch hi.symm.trans hi'
  | pair hi _ ih => exact .pair hi ih

theorem IsList.le_length (hn : A.IsList n i) : n ≤ A.items.length := by
  have hpairs : ∀ {m j}, Chain A.object (m + 1) j → j ∈ List.range A.items.length := by
    intro m j hj
    cases hj with
    | pair hobject _ => exact List.mem_range.mpr (lt_of_object hobject)
  obtain ⟨js, rfl, hnodup, -, hchains⟩ := hn.chain.exists_pairs (fun _ => True) trivial
    fun _ _ => trivial
  have hsub : js ⊆ List.range A.items.length := fun j hj =>
    (hchains j hj).elim fun _ hchain => hpairs hchain.2
  have := (List.subperm_of_subset hnodup hsub).length_le
  rwa [List.length_range] at this

theorem listLengthFrom_eq_some_iff {count m : Nat} :
    A.listLengthFrom fuel i count = some m ↔ ∃ n, A.IsList n i ∧ n < fuel ∧ m = count + n := by
  induction fuel generalizing i count with
  | zero => simp [listLengthFrom]
  | succ fuel ih =>
    unfold listLengthFrom
    constructor
    · intro hrun
      split at hrun
      · rename_i hi
        exact ⟨0, .null hi, by omega, (Option.some.inj hrun).symm⟩
      · rename_i hi
        obtain ⟨n, hn, hlt, rfl⟩ := ih.mp hrun
        exact ⟨n + 1, .pair hi hn, by omega, by omega⟩
      · cases hrun
    · rintro ⟨n, hn, hlt, rfl⟩
      cases hn with
      | null hi => simp only [hi, Nat.add_zero]
      | @pair n _ _ _ hi hn =>
        simp only [hi]
        exact ih.mpr ⟨n, hn, by omega, by omega⟩

/-- There is always enough fuel to count. -/
theorem listLength_eq_ok_iff : A.listLength i = .ok n ↔ A.IsList n i := by
  unfold listLength
  constructor
  · intro hrun
    split at hrun
    · rename_i hcount
      cases hrun
      obtain ⟨m, hm, -, rfl⟩ := listLengthFrom_eq_some_iff.mp hcount
      rwa [Nat.zero_add]
    · cases hrun
  · intro hn
    rw [listLengthFrom_eq_some_iff.mpr ⟨n, hn, Nat.lt_succ_of_le hn.le_length, rfl⟩, Nat.zero_add]

end Store

namespace Depicts

variable {ground : Ground} {A : Store} {slots : List Nat} {pos : Nat → Nat → Prop} {h : Heap} {i r n : Nat}

theorem isList_iff (hd : Depicts ground A slots pos h) (hi : pos i r) : A.IsList n i ↔ h.IsList n r := by
  constructor
  · intro hn
    induction hn generalizing r with
    | null hobject =>
      have halike := hobject ▸ hd.object hi
      generalize ho : h.object r = o at halike
      cases halike with
      | null => exact .null ho
    | pair hobject _ ih =>
      have halike := hobject ▸ hd.object hi
      generalize ho : h.object r = o at halike
      cases halike with
      | pair _ hcdr => exact .pair ho (ih hcdr)
  · intro hn
    induction hn generalizing i with
    | null hobject =>
      have halike := hobject ▸ hd.object hi
      generalize ho : A.object i = o at halike
      cases halike with
      | null => exact .null ho
    | pair hobject _ ih =>
      have halike := hobject ▸ hd.object hi
      generalize ho : A.object i = o at halike
      cases halike with
      | pair _ hcdr => exact .pair ho (ih hcdr)

theorem listLength (hd : Depicts ground A slots pos h) (hi : pos i r) :
    Answers (fun n m => n = m ∧ A.IsList n i) (A.listLength i) (h.listLength r) := by
  have hcounted := hd.sound.wf.counted (hd.mem hi)
  cases hlength : A.listLength i with
  | ok n =>
    have hn := Store.listLength_eq_ok_iff.mp hlength
    rw [hcounted.ok ((hd.isList_iff hi).mp hn)]
    exact .ok ⟨rfl, hn⟩
  | error fault =>
    have hnone : ∀ n, ¬ h.IsList n r := by
      intro n hn
      rw [Store.listLength_eq_ok_iff.mpr ((hd.isList_iff hi).mpr hn)] at hlength
      cases hlength
    have hfault : fault = .wrongType "proper list" (A.typeName i) := by
      unfold Store.listLength at hlength
      split at hlength
      · cases hlength
      · exact (Except.error.inj hlength).symm
    rw [hcounted.improper hnone, improper, hfault, hd.typeName hi]
    exact .error _ rfl

end Depicts

/-! Text. -/

namespace Store

variable {A : Store} {p q : Nat → Bool} {i j : Nat}

/-- How many things a walk has not met. -/
def unmet (A : Store) (met : Nat → Bool) : Nat :=
  (List.range A.items.length).countP fun i => !met i

/-- How many steps a walk inside of `met` can take from `i` on. -/
def depth (A : Store) (met : Nat → Bool) (i : Nat) : Nat :=
  A.unmet met * (A.items.length + 1) + i + 1

theorem depth_lt (hi : i < A.items.length) (hp : p i = false) (hq : ∀ x, q x = (i == x || p x))
    (hj : j < A.items.length) : A.depth q j < A.depth p i := by
  have hlt : A.unmet q < A.unmet p := by
    refine countP_lt_countP (List.mem_range.mpr hi) (fun y _ hy => ?_) (by simp [hp]) (by simp [hq])
    rw [hq] at hy
    simp only [Bool.not_or, Bool.and_eq_true] at hy
    exact hy.2
  have hmul := Nat.mul_le_mul_right (A.items.length + 1) (Nat.succ_le_of_lt hlt)
  rw [Nat.succ_mul] at hmul
  unfold depth
  omega

theorem depth_le (hi : i < A.items.length) :
    A.depth p i ≤ (A.items.length + 1) * (A.items.length + 1) := by
  have hle : A.unmet p ≤ A.items.length := by
    have := List.countP_le_length (p := fun i => !p i) (l := List.range A.items.length)
    rwa [List.length_range] at this
  have hmul := Nat.mul_le_mul_right (A.items.length + 1) hle
  rw [Nat.succ_mul]
  unfold depth
  omega

end Store

theorem Item.eq_of_object_tagged (hobject : item.object = .tagged marker value) :
    item = .tagged marker value := by
  cases item with
  | tagged m v =>
    cases hobject
    rfl
  | singleton kind => cases kind <;> cases hobject
  | _ => cases hobject

namespace Depicts

variable {ground : Ground} {A : Store} {slots : List Nat} {pos : Nat → Nat → Prop} {h : Heap} {i r : Nat}

/-- The parts of a tagged value are older than it. -/
theorem tagged_lt (hd : Depicts ground A slots pos h) (hi : pos i r)
    (hobject : A.object i = .tagged marker value) (p : Nat → Bool) :
    A.depth p value < A.depth p i := by
  obtain ⟨item, hitem, -⟩ := hd.item hi
  have hclosed := hd.closed hitem
  unfold Store.object Store.item at hobject
  rw [hitem, Option.getD_some] at hobject
  rw [Item.eq_of_object_tagged hobject] at hclosed
  have := hclosed.2
  unfold Store.depth
  omega

theorem name_text (hd : Depicts ground A slots pos h) (hi : pos i r) : A.name i = h.nameText r := by
  have hname := hd.nameOf hi
  unfold Store.nameOf Store.ask at hname
  unfold Store.name Heap.nameText
  generalize A.item i = item at hname ⊢
  generalize h.symbolName r = y at hname ⊢
  cases item with
  | symbol name =>
    cases hname with
    | ok heq => exact heq
  | _ =>
    cases hname with
    | error => rfl

/-- Things have been met if their records have. -/
def SameMet (pos : Nat → Nat → Prop) (path path' : Std.TreeSet Nat) : Prop :=
  ∀ i r, pos i r → path.contains i = path'.contains r

theorem sameMet_insert (hd : Depicts ground A slots pos h) (hi : pos i r)
    (hpath : SameMet pos path path') :
    SameMet pos (path.insert i) (path'.insert r) := by
  intro j s hj
  have heq : (i == j) = (r == s) := by
    rw [Bool.eq_iff_iff, beq_iff_eq, beq_iff_eq]
    exact hd.eq_iff hi hj
  rw [contains_insert, contains_insert, hpath j s hj, heq]

/-- Inside of a pair or a vector that is not in the path, both walks have less to do. -/
theorem depth_insert (hd : Depicts ground A slots pos h) (hi : pos i r) (hpath : SameMet pos path path')
    (hout : path.contains i = false) {j s : Nat} (hj : pos j s) :
    A.depth (path.insert i).contains j < A.depth path.contains i ∧
      h.depth (path'.insert r).contains s < h.depth path'.contains r :=
  ⟨Store.depth_lt (hd.lt hi) hout (contains_insert path i) (hd.lt hj),
    Heap.depth_lt hd.sound (hd.mem hi) (hpath i r hi ▸ hout) (contains_insert path' r) (hd.mem hj)⟩

/-- `fuel` steps write a thing like its record, and a list that is not being written further out, which
takes one step less. -/
def WritesAlike (A : Store) (pos : Nat → Nat → Prop) (h : Heap) (mode : WriteMode) (fuel : Nat) :
    Prop :=
  ∀ {fuel' : Nat} {path path' : Std.TreeSet Nat} {i r : Nat} (out : String),
    SameMet pos path path' → pos i r →
    (2 * A.depth path.contains i ≤ fuel → 2 * h.depth path'.contains r ≤ fuel' →
      A.textFrom mode fuel path i out = h.textFrom mode fuel' path' r out) ∧
    (path.contains i = false → 2 * A.depth path.contains i ≤ fuel + 1 →
      2 * h.depth path'.contains r ≤ fuel' + 1 →
      A.spineFrom mode fuel path i out = h.spineFrom mode fuel' path' r out)

section

variable (hd : Depicts ground A slots pos h)
include hd

theorem textFrom_succ (ih : WritesAlike A pos h mode fuel) (out : String)
    (hpath : SameMet pos path path') (hi : pos i r) (hfuel : 2 * A.depth path.contains i ≤ fuel + 1)
    (hfuel' : 2 * h.depth path'.contains r ≤ fuel' + 1) :
    A.textFrom mode (fuel + 1) path i out = h.textFrom mode (fuel' + 1) path' r out := by
  have hobject := hd.object hi
  unfold Store.textFrom Heap.textFrom
  generalize ho : A.object i = o at hobject ⊢
  generalize ho' : h.object r = o' at hobject ⊢
  cases hobject with
  | integer | float | boolean | char | null | eof | environment | binding => rfl
  | symbol => simp only [hd.name_text hi]
  | string length =>
    have hvalue := hd.stringValue hi
    unfold Store.textOf Store.ask at hvalue
    unfold Store.object at ho
    generalize A.item i = item at hvalue ho ⊢
    generalize h.stringValue r = y at hvalue ⊢
    cases item with
    | string text =>
      cases hvalue with
      | ok heq => rw [heq]; rfl
    | singleton kind => cases kind <;> cases ho
    | _ => cases ho
  | builtin _ hname => simp only [hd.name_text hname]
  | closure hc => simp only [hd.name_text hc.name]
  | pair =>
    simp only [hpath i r hi]
    cases hout : path'.contains r with
    | true => simp only [if_true]
    | false =>
      simp only [Bool.false_eq_true, if_false]
      rw [(ih _ hpath hi).2 ((hpath i r hi).trans hout) hfuel hfuel']
  | vector length =>
    simp only [hpath i r hi]
    cases hout : path'.contains r with
    | true => simp only [if_true]
    | false =>
      obtain ⟨hk, hlength⟩ := kind_of_vector ho'
      obtain ⟨elements, helements, hall⟩ :=
        resembles_vector hk ((hd.item_at hi).resembles hd.sound (by rw [hk]; decide))
      have hcount : elements.length = length := by
        rw [hall.length_eq, ← hlength]
        simp only [Heap.elements, List.length_map, List.length_range]
        rfl
      simp only [Bool.false_eq_true, if_false, helements, Option.getD_some]
      congr 1
      refine List.foldl_ext _ _ _ fun text k hk => ?_
      have hitem := pos_element hall (hcount ▸ List.mem_range.mp hk)
      obtain ⟨hlt, hlt'⟩ := hd.depth_insert hi hpath ((hpath i r hi).trans hout) hitem
      exact (ih _ (hd.sameMet_insert hi hpath) hitem).1 (by omega) (by omega)
  | tagged _ hvalue =>
    have hlt := hd.tagged_lt hi ho path.contains
    obtain ⟨-, hlt'⟩ := Heap.tagged_lt (p := path'.contains) hd.sound (hd.mem hi) ho'
    have hpart := (@ih fuel' _ _ _ _ (out ++ "<tag ") hpath hvalue).1 (by omega) (by omega)
    simp only [hpart]

theorem spineFrom_succ (ih : WritesAlike A pos h mode fuel) (out : String)
    (hpath : SameMet pos path path') (hi : pos i r) (hout : path.contains i = false)
    (hfuel : 2 * A.depth path.contains i ≤ fuel + 2)
    (hfuel' : 2 * h.depth path'.contains r ≤ fuel' + 2) :
    A.spineFrom mode (fuel + 1) path i out = h.spineFrom mode (fuel' + 1) path' r out := by
  have hobject := hd.object hi
  unfold Store.spineFrom Heap.spineFrom
  generalize A.object i = o at hobject ⊢
  generalize h.object r = o' at hobject ⊢
  cases hobject with
  | @pair car a cdr d hcar hcdr =>
    have hpath' := hd.sameMet_insert hi hpath
    obtain ⟨hlt, hlt'⟩ := hd.depth_insert hi hpath hout hcar
    have hfirst := (@ih fuel' _ _ _ _ out hpath' hcar).1 (by omega) (by omega)
    obtain ⟨hlt, hlt'⟩ := hd.depth_insert hi hpath hout hcdr
    simp only [hfirst]
    generalize h.textFrom mode fuel' (path'.insert r) a out = text
    have hrest := hd.object hcdr
    generalize A.object cdr = o at hrest ⊢
    generalize h.object d = o' at hrest ⊢
    cases hrest with
    | null => rfl
    | pair =>
      simp only [hpath' cdr d hcdr]
      cases hmet : (path'.insert r).contains d with
      | true => simp only [if_true]
      | false => exact (ih _ hpath' hcdr).2 ((hpath' cdr d hcdr).trans hmet) (by omega) (by omega)
    | _ => exact (ih _ hpath' hcdr).1 (by omega) (by omega)
  | _ => rfl

theorem writesAlike (mode : WriteMode) (fuel : Nat) :
    WritesAlike A pos h mode fuel := by
  induction fuel with
  | zero =>
    intro fuel' path path' i r out hpath hi
    constructor <;> intros <;> unfold Store.depth at * <;> omega
  | succ fuel ih =>
    intro fuel' path path' i r out hpath hi
    have hpos : 1 ≤ h.depth path'.contains r := Nat.succ_le_succ (Nat.zero_le _)
    obtain _ | fuel' := fuel'
    · constructor <;> intros <;> omega
    · exact ⟨hd.textFrom_succ ih out hpath hi, hd.spineFrom_succ ih out hpath hi⟩

theorem text (mode : WriteMode) (hi : pos i r) :
    A.text mode i = h.text mode r :=
  (hd.writesAlike mode _ "" (fun _ _ _ => rfl) hi).1
    (Nat.mul_le_mul_left 2 (Store.depth_le (hd.lt hi)))
    (Nat.mul_le_mul_left 2 (Heap.depth_le hd.sound (hd.mem hi)))

end

end Depicts

end ArenaScheme
