import ArenaScheme.Proofs.Additions
import ArenaScheme.Proofs.StoreConstructors

/-! How constructors end. A constructor adds one object or fails for want of memory, and in either
case it goes through sound heaps and does nothing but add data. What was shown before is shown
after it. -/

namespace ArenaScheme

open Memory Heap

namespace Heap

variable {rules : Rules} {h g : Heap} {n : Nat} {may may' : Effect → Prop}

theorem Sound.filled (hs : h.Sound rules) : h.Filled :=
  ⟨hs.wf, Nat.lt_of_lt_of_le (by decide) hs.intact.used_ge⟩

/-- A computation that may do more. -/
theorem Evolves.allow (he : Evolves rules n may h g) (hmay : ∀ effect, may effect → may' effect) :
    Evolves rules n may' h g := by
  induction he with
  | refl hs hn => exact .refl hs hn
  | step hs hn hc _ ih =>
    refine .step hs hn ?_ ih
    cases hc with
    | move hr => exact .move hr
    | roots l hmem hsize hroot => exact .roots l hmem hsize hroot
    | record hm hkind h =>
      refine .record hm hkind fun hk => ?_
      obtain ⟨index, hindex, h⟩ := h hk
      exact ⟨index, hindex, hmay _ h⟩
    | field hr hm heffect h => exact .field hr hm heffect (hmay _ h)
    | symbol hadded h => exact .symbol hadded (hmay _ h)
    | binding hadded h => exact .binding hadded (hmay _ h)

/-- A heap with frames that a machine can bind names in. -/
def Orderly (rules : Rules) (h : Heap) : Prop :=
  ∀ t, rules.table = some t → t ∈ h.records ∧ h.memory.isPinned t = true

theorem Orderly.ordered (ho : h.Orderly rules) (may : Effect → Prop) :
    (View.diagonal rules may h).Ordered :=
  ⟨Or.inr View.single_diagonal, ho⟩

end Heap

namespace HeapM

variable {h g : Heap} {rules : Rules} {n size : Nat} {kind : Kind} {bytes : List UInt8}
  {fault : Fault}

/-- A fault of memory, and not for the size of one record alone if that is within bounds. -/
def WantOfMemory (size : Nat) (fault : Fault) : Prop :=
  fault.isMemory = true ∧ (size ≤ maxSize → fault.isHeapExhausted = true)

/-- Where there is no room for a record, memory is exhausted. -/
theorem wantOfMemory_of_room {kept : Vector Ref n} {words : Vector Ref n → List Nat}
    (hs : h.Sound rules) (hkept : ∀ r ∈ kept, r ∈ h.records) (total : Nat)
    (hrun : (room size kept >>= fun xs => put kind size (words xs) bytes) h = .error fault g) :
    WantOfMemory total fault := by
  obtain ⟨_, _, _, _, -, -, -, ⟨-, hok, -⟩ | ⟨-, -, herror⟩⟩ := room_spec size hs.wf hs.capacity_pos hkept
  · rw [bind_ok hok] at hrun
    cases hrun
  · rw [bind_error herror] at hrun
    cases hrun
    exact ⟨rfl, fun _ => rfl⟩

theorem wantOfMemory_of_checkSize {α : Type} {f : Unit → HeapM α}
    (hrest : f () h = .error fault g → WantOfMemory size fault)
    (hrun : (checkSize size >>= f) h = .error fault g) : WantOfMemory size fault := by
  unfold checkSize at hrun
  split at hrun
  case isTrue hsize =>
    cases hrun
    exact ⟨rfl, fun hle => absurd hsize (Nat.not_lt_of_le hle)⟩
  case isFalse => exact hrest hrun

end HeapM

namespace Construction

variable {h g : Heap} {rules : Rules} {fault : Fault} {c : Construction}

/-- The constructor as an operation on the heap. -/
def op : Construction → HeapOp
  | integer value => .integer value
  | float bits => .float bits
  | character c => .character c
  | cons car cdr => .cons car cdr
  | string text => .string text
  | makeString length fill => .makeString length fill
  | makeVector length fill => .makeVector length fill
  | vectorFromRoots base => .vectorFromRoots base
  | builtin name index => .builtin name index
  | closure c => .closure c.name c.formals c.env c.body c.arity c.rest
  | environment outer => .environment outer
  | tagged marker value => .tagged marker value

/-- The references that have to be frames. -/
def frames : Construction → List Ref
  | closure c => [c.env]
  | environment outer => outer.toList
  | _ => []

theorem apply_op (c : Construction) (h : Heap) : c.op.apply h = h.after c.run := by
  cases c <;> rfl

theorem op_valid (hc : c.Valid h) (hframes : ∀ r ∈ c.frames, h.memory.kind r = .environment) :
    c.op.Valid h := by
  obtain ⟨hrefs, hheight, -⟩ := hc
  cases c with
  | environment outer => exact ⟨hrefs, hframes, Nat.zero_le _⟩
  | vectorFromRoots base => exact ⟨hrefs, nofun, hheight⟩
  | closure c => exact ⟨hrefs, nofun, Nat.zero_le _⟩
  | _ => exact ⟨hrefs, nofun, Nat.zero_le _⟩

/-- A constructor goes through sound heaps and does nothing but add data. -/
theorem evolves (hs : h.Sound rules) (ho : h.Orderly rules) (hc : c.Valid h)
    (hframes : ∀ r ∈ c.frames, h.memory.kind r = .environment) :
    Evolves rules (c.height h) Effect.IsAddition h (h.after c.run) := by
  have hcaptured : ∀ r ∈ c.op.captured, h.memory.kind r = .environment := by
    cases c with
    | closure c => exact hframes
    | _ => exact nofun
  have he := HeapOp.evolves_under hs (ho.ordered _) (fun _ => hcaptured) (op_valid hc hframes)
  rw [apply_op] at he
  have hheight : c.op.keeps h = c.height h := by cases c <;> rfl
  rw [hheight] at he
  refine he.allow fun effect hmay => ?_
  cases c with
  | builtin name index =>
    obtain rfl := hmay
    trivial
  | _ => exact hmay.elim

/-- How many bytes the record takes, of those that may take any number. -/
def size (h : Heap) : Construction → Nat
  | string text => sequenceSize text.toList.length
  | makeString length _ | makeVector length _ => sequenceSize length
  | vectorFromRoots base => sequenceSize (h.roots.size - base)
  | _ => 0

/-- A constructor fails for want of memory only. -/
theorem wantOfMemory (hs : h.Sound rules) (hc : c.Valid h) (hrun : c.run h = .error fault g) :
    HeapM.WantOfMemory (c.size h) fault := by
  have hrefs := hc.refs
  cases c with
  | integer value =>
    rw [run, HeapM.integer_eq] at hrun
    exact HeapM.wantOfMemory_of_room hs HeapM.mem_empty _ hrun
  | float bits =>
    rw [run, HeapM.float_eq] at hrun
    exact HeapM.wantOfMemory_of_room hs HeapM.mem_empty _ hrun
  | character c =>
    rw [run, HeapM.character_eq] at hrun
    exact HeapM.wantOfMemory_of_room hs HeapM.mem_empty _ hrun
  | string text =>
    rw [run, HeapM.string_eq] at hrun
    simp only [List.length_map] at hrun
    exact HeapM.wantOfMemory_of_checkSize (HeapM.wantOfMemory_of_room hs HeapM.mem_empty _) hrun
  | makeString length fill =>
    rw [run, HeapM.makeString_eq] at hrun
    exact HeapM.wantOfMemory_of_checkSize (HeapM.wantOfMemory_of_room hs HeapM.mem_empty _) hrun
  | cons a b =>
    rw [run, HeapM.cons_eq] at hrun
    exact HeapM.wantOfMemory_of_room hs (by simpa [refs] using hrefs) _ hrun
  | tagged a b =>
    rw [run, HeapM.tagged_eq] at hrun
    exact HeapM.wantOfMemory_of_room hs (by simpa [refs] using hrefs) _ hrun
  | makeVector length fill =>
    rw [run, HeapM.makeVector_eq] at hrun
    exact HeapM.wantOfMemory_of_checkSize
      (HeapM.wantOfMemory_of_room hs (by simpa [refs] using hrefs) _) hrun
  | builtin name index =>
    rw [run, HeapM.builtin_eq] at hrun
    exact HeapM.wantOfMemory_of_room hs (by simpa [refs] using hrefs) _ hrun
  | closure c =>
    rw [run, HeapM.closure_eq] at hrun
    exact HeapM.wantOfMemory_of_room hs (by simpa [refs] using hrefs) _ hrun
  | environment outer =>
    rw [run, HeapM.environment_eq] at hrun
    refine HeapM.wantOfMemory_of_room hs (fun r hr => ?_) _ hrun
    obtain rfl : r = outer.getD null := by simpa using hr
    cases outer with
    | none => exact hs.filled.null_mem
    | some r => exact hrefs r (.head _)
  | vectorFromRoots base =>
    have hgathers := HeapM.gathers hs base
    rw [show HeapM.vectorFromRoots base h = _ from hrun] at hgathers
    cases hgathers with
    | tooLarge hlt => exact ⟨rfl, fun hle => absurd hlt (Nat.not_lt_of_le hle)⟩
    | exhausted _ _ => exact ⟨rfl, fun _ => rfl⟩

/-- How a constructor ends. -/
inductive Ends (rules : Rules) (h : Heap) (c : Construction) :
    EStateM.Result Fault Heap Ref → Prop
  | ok {kept : Ref → Prop} {place : Ref → Ref} {r : Ref} {g : Heap} :
    Evolves rules (c.height h) Effect.IsAddition h g →
    h.Extends c.refs (c.height h) kept place [(r, (c.content h).map place)] g →
    Ends rules h c (.ok r g)
  | memory {fault : Fault} {g : Heap} : Evolves rules (c.height h) Effect.IsAddition h g →
    HeapM.WantOfMemory (c.size h) fault → Ends rules h c (.error fault g)

theorem ends (hs : h.Sound rules) (ho : h.Orderly rules) (hc : c.Valid h)
    (hframes : ∀ r ∈ c.frames, h.memory.kind r = .environment) : c.Ends rules h (c.run h) := by
  have he := evolves hs ho hc hframes
  unfold Heap.after at he
  cases hrun : c.run h with
  | ok r g =>
    rw [hrun] at he
    obtain ⟨kept, place, hext⟩ := Construction.extends hs.filled hc hrun
    exact .ok he hext
  | error fault g =>
    rw [hrun] at he
    exact .memory he (wantOfMemory hs hc hrun)

end Construction

/-! What is shown before and after. -/

/-- Where references lead does not matter to data without parts. -/
theorem Content.datum?_map (place : Ref → Ref) (c : Content) :
    (c.map place).object.datum? = c.object.datum? := by
  cases c <;> rfl

namespace Heap

variable {rules : Rules} {h g : Heap} {refs : List Ref} {height : Nat} {kept : Ref → Prop}
  {place : Ref → Ref} {news : List (Ref × Content)} {r : Ref} {d : Datum}

theorem symbolName_iff {name : String} : h.symbolName r = .ok name ↔
    ∃ left right digest bytes, h.content r = .symbol left right digest bytes ∧
      Text.decode bytes = name := by
  rw [symbolName_eq_ok_iff]
  constructor
  · rintro ⟨hk, rfl⟩
    exact ⟨h.field r 0, h.field r 1, h.field r 2, _, by simp only [content, Heap.kind, hk], rfl⟩
  · rintro ⟨left, right, digest, bytes, hc, rfl⟩
    unfold content Heap.kind at hc
    cases hk : h.memory.kind r <;> rw [hk] at hc <;> cases hc
    exact ⟨rfl, rfl⟩

theorem stringValue_iff {text : String} : h.stringValue r = .ok text ↔
    ∃ codes, h.content r = .string codes ∧ String.ofList (codes.map charOfCode) = text := by
  have hcharacters : h.characters r = (h.elements r).map charOfCode := by
    rw [characters, elements, List.map_map]
    rfl
  rw [stringValue_eq_ok_iff, hcharacters]
  constructor
  · rintro ⟨hk, rfl⟩
    exact ⟨_, by simp only [content, Heap.kind, hk], rfl⟩
  · rintro ⟨codes, hc, rfl⟩
    unfold content Heap.kind at hc
    cases hk : h.memory.kind r <;> rw [hk] at hc <;> cases hc
    exact ⟨rfl, rfl⟩

theorem object_eq_pair_iff_content {a b : Ref} : h.object r = .pair a b ↔ h.content r = .pair a b := by
  rw [object_eq]
  cases h.content r <;> simp [Content.object]

theorem getElem_elements {i : Nat} (hi : i < (h.elements r).length) :
    (h.elements r)[i] = h.field r (1 + i) :=
  (List.getElem_map (fun i => h.field r (1 + i))).trans (by rw [List.getElem_range])

theorem elements_of_content {xs : List Ref} (hc : h.content r = .vector xs) : h.elements r = xs := by
  unfold content Heap.kind at hc
  cases hk : h.memory.kind r <;> rw [hk] at hc <;> cases hc
  rfl

theorem object_eq_vector_iff {length : Nat} : h.object r = .vector length ↔
    h.content r = .vector (h.elements r) ∧ (h.elements r).length = length := by
  constructor
  · intro ho
    obtain ⟨hk, rfl⟩ := kind_of_vector ho
    exact ⟨by simp only [content, Heap.kind, hk], by simp [elements, Heap.field]⟩
  · rintro ⟨hc, rfl⟩
    rw [object_eq, hc]
    rfl

theorem forall₂_elements {p : Nat → Datum → Prop} {items : List Datum} :
    List.Forall₂ p (h.elements r) items ↔ (h.elements r).length = items.length ∧
      ∀ i (hi : i < items.length), p (h.field r (1 + i)) items[i] := by
  rw [List.forall₂_iff_get]
  refine and_congr_right fun hlength => forall_congr' fun i => ?_
  constructor
  · intro hitem hi
    rw [← getElem_elements (hlength ▸ hi)]
    exact hitem (hlength ▸ hi) hi
  · intro hitem hi hi'
    rw [List.get_eq_getElem, getElem_elements hi]
    exact hitem hi'

theorem shows_vector_iff {items : List Datum} : h.Shows r (.vector items) ↔
    ∃ xs, h.content r = .vector xs ∧ List.Forall₂ h.Shows xs items := by
  constructor
  · intro hd
    cases hd with
    | plain ho => cases hobject : h.object r <;> rw [hobject] at ho <;> cases ho
    | vector ho hitems =>
      obtain ⟨hc, hlength⟩ := object_eq_vector_iff.mp ho
      exact ⟨_, hc, forall₂_elements.mpr ⟨hlength, hitems⟩⟩
  · rintro ⟨xs, hc, hitems⟩
    obtain rfl := elements_of_content hc
    obtain ⟨hlength, hitems⟩ := forall₂_elements.mp hitems
    exact .vector (object_eq_vector_iff.mpr ⟨hc, hlength⟩) hitems

/-- What can be reached goes on to show what it shows. -/
theorem Shows.extend (hd : h.Shows r d) (hs : h.Sound rules)
    (he : h.Extends refs height kept place news g) (hr : r ∈ h.records)
    (hreach : h.Reaches refs r) : g.Shows (place r) d := by
  have hcontent : ∀ {r}, h.Reaches refs r → g.content (place r) = (h.content r).map place :=
    fun hreach => (store_eq_some.mp (he.old _ (he.reached _ hreach))).2
  induction hd with
  | @plain r d ho =>
    exact .plain (by rw [object_eq, hcontent hreach, Content.datum?_map, ← object_eq, ho])
  | @symbol r name ho =>
    obtain ⟨_, _, _, _, hc, hname⟩ := symbolName_iff.mp ho
    exact .symbol (symbolName_iff.mpr ⟨_, _, _, _, (hcontent hreach).trans (by rw [hc]; rfl), hname⟩)
  | @string r text ho =>
    obtain ⟨_, hc, htext⟩ := stringValue_iff.mp ho
    exact .string (stringValue_iff.mpr ⟨_, (hcontent hreach).trans (by rw [hc]; rfl), htext⟩)
  | @pair r a b car cdr ho _ _ ihcar ihcdr =>
    have hc := object_eq_pair_iff_content.mp ho
    obtain ⟨hk, rfl, rfl⟩ := kind_of_pair ho
    have hmem := hs.pair_field_mem hr hk (k := 0) (by decide)
    have hmem' := hs.pair_field_mem hr hk (k := 1) (by decide)
    have hcar := ihcar hmem (hreach.reference (by simp [hc, Content.references])
      (hs.wf.ne_absent hmem))
    have hcdr := ihcdr hmem' (hreach.reference (by simp [hc, Content.references])
      (hs.wf.ne_absent hmem'))
    refine @Shows.pair g _ _ _ _ _ (object_eq_pair_iff_content.mpr ?_) hcar hcdr
    rw [hcontent hreach, hc]
    rfl
  | @vector r items ho hitems ih =>
    obtain ⟨hc, hlength⟩ := object_eq_vector_iff.mp ho
    refine shows_vector_iff.mpr ⟨_, (hcontent hreach).trans (by rw [hc]; rfl), ?_⟩
    rw [List.forall₂_map_left_iff]
    refine forall₂_elements.mpr ⟨hlength, fun i hi => ?_⟩
    have hmem := field_mem_vector hs hr ho hi
    refine ih i hi hmem (hreach.reference ?_ (hs.wf.ne_absent hmem))
    rw [hc, Content.references, ← getElem_elements (hlength ▸ hi)]
    exact List.getElem_mem _

end Heap

end ArenaScheme
