import ArenaScheme.Proofs.Frames

/-! Runs of heap operations. A new heap is sound, and each operation on records of the heap leaves
it sound, whether it succeeds or fails; hence every heap that such operations lead to is well laid
out. An operation is looked at from a view whose two sides are the same heap. -/

namespace ArenaScheme

open Memory Heap

variable {α β : Type} {h : Heap} {x : HeapM α} {y : HeapM β} {op : HeapOp} {capacity n r : Nat}
  {p : Nat × Kind} {rules : Rules} {size : UInt32} {v : View} {post : View → α → β → Prop}

/-! The heap to start from. -/

theorem byte_putHeader_of_outside (m : Memory) (r : Nat) (kind : Kind) (pinned : Bool) (i : Nat)
    (hi : i < r ∨ r + 5 ≤ i) : (m.putHeader r kind pinned).byte i = m.byte i := by
  rw [putHeader, setForward, byte_setWord_of_outside _ _ _ _ (by omega),
    byte_setByte_of_ne _ _ _ _ (by omega)]

@[simp] theorem size_putHeader (m : Memory) (r : Nat) (kind : Kind) (pinned : Bool) :
    (m.putHeader r kind pinned).size = m.size := by
  rw [putHeader, setForward, size_setWord, size_setByte]

/-- The header bytes of the singletons. -/
theorem byte_new (capacity : Nat) (hp : p ∈ fixtures) :
    ((Heap.new capacity).memory.byte p.1).toNat = p.2.code + 64 := by
  have hsize : 256 ≤ (Memory.zeros (max capacity minSize)).size := Nat.le_max_right _ _
  have houtside := byte_putHeader_of_outside
  simp only [fixtures, List.mem_cons, List.not_mem_nil, or_false] at hp
  unfold Heap.new
  rcases hp with rfl | rfl | rfl | rfl
  · rw [houtside _ eof _ _ _ (by decide), houtside _ falsity _ _ _ (by decide),
      houtside _ truth _ _ _ (by decide), byte_putHeader _ _ _ _ (Nat.lt_of_lt_of_le (by decide) hsize)]
    rfl
  · rw [houtside _ eof _ _ _ (by decide), houtside _ falsity _ _ _ (by decide),
      byte_putHeader _ _ _ _ (by rw [size_putHeader]; exact Nat.lt_of_lt_of_le (by decide) hsize)]
    rfl
  · rw [houtside _ eof _ _ _ (by decide), byte_putHeader _ _ _ _
      (by rw [size_putHeader, size_putHeader]; exact Nat.lt_of_lt_of_le (by decide) hsize)]
    rfl
  · rw [byte_putHeader _ _ _ _ (by
      rw [size_putHeader, size_putHeader, size_putHeader]
      exact Nat.lt_of_lt_of_le (by decide) hsize)]
    rfl

theorem kind_new (capacity : Nat) (hp : p ∈ fixtures) :
    (Heap.new capacity).memory.kind p.1 = p.2 := by
  rw [Memory.kind, byte_new capacity hp]
  revert p
  decide

theorem extent_of_fixture {m : Memory} (hp : p ∈ fixtures) (hk : m.kind r = p.2) :
    m.extent r = 5 ∧ m.referenceFields r = [] := by
  simp only [fixtures, List.mem_cons, List.not_mem_nil, or_false] at hp
  rcases hp with rfl | rfl | rfl | rfl <;> simp only [extent, referenceFields, hk] <;>
    exact ⟨rfl, trivial⟩

theorem records_new (capacity : Nat) :
    (Heap.new capacity).records = [null, truth, falsity, eof] ∧
      Tiled (Heap.new capacity).memory 20 0 [null, truth, falsity, eof] := by
  have hextent : ∀ p ∈ fixtures, (Heap.new capacity).memory.extent p.1 = 5 := fun p hp =>
    (extent_of_fixture hp (kind_new capacity hp)).1
  have htiled : Tiled (Heap.new capacity).memory 20 0 [null, truth, falsity, eof] := by
    have hstep : ∀ p ∈ fixtures, ∀ rs, Tiled (Heap.new capacity).memory 20 (p.1 + 5) rs →
        Tiled (Heap.new capacity).memory 20 p.1 (p.1 :: rs) := fun p hp rs hrest =>
      .record (by rw [hextent p hp]; exact hrest)
    exact hstep (null, .null) (by decide) _ (hstep (truth, .truth) (by decide) _
      (hstep (falsity, .falsity) (by decide) _ (hstep (eof, .eof) (by decide) _ .done)))
  exact ⟨records_eq htiled (show 20 ≤ maxSize by decide), htiled⟩

theorem mem_records_new (hr : r ∈ (Heap.new capacity).records) : ∃ p ∈ fixtures, p.1 = r := by
  rw [(records_new capacity).1] at hr
  revert r
  decide

/-- A new heap holds nothing but the singletons. -/
theorem Heap.Sound.new (h : capacity ≤ maxSize) (rules : Rules) :
    (Heap.new capacity).Sound rules := by
  obtain ⟨hrecords, htiled⟩ := records_new capacity
  have hfields : ∀ r ∈ (Heap.new capacity).records,
      (Heap.new capacity).memory.referenceFields r = [] := by
    intro r hr
    obtain ⟨p, hp, rfl⟩ := mem_records_new hr
    exact (extent_of_fixture hp (kind_new capacity hp)).2
  have hpinned : ∀ r ∈ (Heap.new capacity).records,
      (Heap.new capacity).memory.isPinned r = true := by
    intro r hr
    obtain ⟨p, hp, rfl⟩ := mem_records_new hr
    have hcode : ∀ p ∈ fixtures, ((p.2.code + 64) / 64 % 2 == 1) = true := by decide
    rw [isPinned, byte_new capacity hp, hcode p hp]
  have hsize : (Heap.new capacity).capacity = max capacity minSize := by
    simp only [Heap.new, Heap.capacity, size_putHeader]
    rfl
  have hmin : minSize ≤ maxSize := by decide
  refine ⟨⟨?_, ?_, ?_, ?_, ?_, ?_, Or.inl rfl⟩, ?_, fun hne => absurd rfl hne, ?_, ?_, ?_, ?_⟩
  · rw [hsize]
    exact Nat.le_trans (show 20 ≤ minSize by decide) (Nat.le_max_right _ _)
  · rw [hsize]
    omega
  · rw [hrecords]
    exact htiled
  · intro r hr
    obtain ⟨p, hp, rfl⟩ := mem_records_new hr
    have hcode : ∀ p ∈ fixtures, p.2.code + 64 < 128 := by decide
    rw [not_isMarked_iff, byte_new capacity hp]
    exact hcode p hp
  · intro r hr k hk
    rw [hfields r hr] at hk
    cases hk
  · intro r hr
    exact absurd hr (Array.not_mem_empty r)
  · intro r hr k hk
    rw [hfields r hr] at hk
    cases hk
  · intro p hp
    have hmem : p.1 ∈ (Heap.new capacity).records := by
      rw [hrecords]
      revert p
      decide
    exact ⟨hmem, kind_new capacity hp, hpinned _ hmem⟩
  · intro r hr p hp hk
    obtain ⟨q, hq, rfl⟩ := mem_records_new hr
    have hinjective : ∀ q ∈ fixtures, ∀ p ∈ fixtures, q.2 = p.2 → q.1 = p.1 := by decide
    exact hinjective q hq p hp ((kind_new capacity hq).symm.trans hk)
  · exact fun _ _ q hq _ _ => hpinned q hq
  · exact fun _ => hpinned

/-! An operation on one heap. -/

theorem Agrees.collect (hv : Corr v) (hn : n ≤ v.left.roots.size) :
    Agrees n v (fun w _ _ => w.left.roots.size = v.left.roots.size) HeapM.collect
      HeapM.collect := by
  obtain ⟨g, place, hrun, hr, -⟩ := HeapM.exists_collected hv.left.wf
  obtain ⟨g', place', hrun', hr', hsame⟩ : ∃ g' place', HeapM.collect v.right = .ok () g' ∧
      v.right.Relocation v.right.Live place' g' ∧
      (v.Single → v.right.Live = v.left.Live ∧ place' = place ∧ g' = g) := by
    by_cases hs : v.Single
    · rw [← hs.same]
      exact ⟨g, place, hrun, hr, fun _ => ⟨rfl, rfl, rfl⟩⟩
    · obtain ⟨g', place', hrun', hr', -⟩ := HeapM.exists_collected hv.right.wf
      exact ⟨g', place', hrun', hr', fun h => absurd h hs⟩
  unfold Agrees
  rw [hrun, hrun']
  exact .ok _ ((hv.moveLeft hr).moveRight hr') (hv.later_move hr hn hsame)
    (by change g.roots.size = _; rw [hr.roots, Array.size_map])

/-- The heap that a computation leaves, whether it succeeds or fails. -/
def Heap.after {α : Type} (h : Heap) (x : HeapM α) : Heap :=
  match x h with
  | .ok _ g => g
  | .error _ g => g

theorem Agrees.evolves (h : Agrees n v post x y) :
    Evolves v.rules n v.may v.left (v.left.after x) := by
  unfold Agrees at h
  unfold Heap.after
  generalize x v.left = p at h ⊢
  generalize y v.right = q at h
  cases h with
  | ok w _ hlater _ => exact hlater.evolves
  | error w _ _ hlater => exact hlater.evolves

/-- What the left one of two runs gives. -/
theorem Agrees.of_ok {a : α} {g : Heap} (h : Agrees n v post x y) (hrun : x v.left = .ok a g) :
    ∃ w b, w.left = g ∧ Corr w ∧ post w a b := by
  unfold Agrees at h
  rw [hrun] at h
  generalize y v.right = q at h
  cases h with
  | ok w hw _ hpost => exact ⟨w, _, rfl, hw, hpost⟩

/-! Runs of operations. -/

/-- What can be done with a heap. -/
inductive HeapOp where
  | integer (value : Int)
  | float (bits : UInt64)
  | character (c : Char)
  | cons (car cdr : Ref)
  | string (text : String)
  | makeString (length : Nat) (fill : Char)
  | makeVector (length : Nat) (fill : Ref)
  | builtin (name : Ref) (index : Nat)
  | closure (name formals env body : Ref) (arity : Nat) (rest : Bool)
  | environment (outer : Option Ref)
  | tagged (marker value : Ref)
  | intern (name : String)
  | define (frame symbol value : Ref)
  | assign (frame symbol value : Ref)
  | extend (parent formals : Ref) (arity : Nat) (rest : Bool) (args : Slot)
  | setCar (pair value : Ref)
  | setCdr (pair value : Ref)
  | stringSet (string : Ref) (index : Int) (c : Char)
  | vectorSet (vector : Ref) (index : Int) (value : Ref)
  | pushRoot (value : Ref)
  | setRoot (slot : Slot) (value : Ref)
  | releaseRoots (count : Nat)
  | listFromRoots (base : Slot) (tail : Ref)
  | vectorFromRoots (base : Slot)
  | collect

namespace HeapOp

/-- The heap after an operation, whether it succeeded or failed. -/
def apply (h : Heap) : HeapOp → Heap
  | integer value => h.after (HeapM.integer value)
  | float bits => h.after (HeapM.float bits)
  | character c => h.after (HeapM.character c)
  | cons car cdr => h.after (HeapM.cons car cdr)
  | string text => h.after (HeapM.string text)
  | makeString length fill => h.after (HeapM.makeString length fill)
  | makeVector length fill => h.after (HeapM.makeVector length fill)
  | builtin name index => h.after (HeapM.builtin name index)
  | closure name formals env body arity rest =>
    h.after (HeapM.closure name formals env body arity rest)
  | environment outer => h.after (HeapM.environment outer)
  | tagged marker value => h.after (HeapM.tagged marker value)
  | intern name => h.after (HeapM.intern name)
  | define frame symbol value => h.after (HeapM.define frame symbol value)
  | assign frame symbol value => h.after (HeapM.assign frame symbol value)
  | extend parent formals arity rest args => h.after (HeapM.extend parent formals arity rest args)
  | setCar pair value => h.after (HeapM.setCar pair value)
  | setCdr pair value => h.after (HeapM.setCdr pair value)
  | stringSet text index c => h.after (HeapM.stringSet text index c)
  | vectorSet vector index value => h.after (HeapM.vectorSet vector index value)
  | pushRoot value => h.after (HeapM.pushRoot value)
  | setRoot slot value => h.after (HeapM.setRoot slot value)
  | releaseRoots count => h.after (HeapM.releaseRoots count)
  | listFromRoots base tail => h.after (HeapM.listFromRoots base tail)
  | vectorFromRoots base => h.after (HeapM.vectorFromRoots base)
  | collect => h.after HeapM.collect

/-- The references that an operation is given. -/
def refs : HeapOp → List Ref
  | cons a b | tagged a b | setCar a b | setCdr a b | vectorSet a _ b | extend a b .. => [a, b]
  | makeVector _ a | builtin a _ | stringSet a .. | pushRoot a | setRoot _ a
  | listFromRoots _ a => [a]
  | closure a b c d .. => [a, b, c, d]
  | environment outer => outer.toList
  | define a b c | assign a b c => [a, b, c]
  | _ => []

/-- The references that have to be frames. -/
def frames : HeapOp → List Ref
  | environment outer => outer.toList
  | extend parent .. => [parent]
  | _ => []

/-- How many roots an operation asks for. -/
def slots : HeapOp → Nat
  | extend _ _ _ _ args => args
  | setRoot slot _ => slot + 1
  | releaseRoots count => count
  | listFromRoots base _ | vectorFromRoots base => base
  | _ => 0

/-- The arguments of an operation denote records of the heap, outer frames are frames, and slots
are within the root stack. -/
structure Valid (h : Heap) (op : HeapOp) : Prop where
  refs : ∀ r ∈ op.refs, r ∈ h.records
  frames : ∀ r ∈ op.frames, h.memory.kind r = .environment
  slots : op.slots ≤ h.roots.size

instance (h : Heap) (op : HeapOp) : Decidable (op.Valid h) :=
  decidable_of_iff
    ((∀ r ∈ op.refs, r ∈ h.records) ∧ (∀ r ∈ op.frames, h.memory.kind r = .environment) ∧
      op.slots ≤ h.roots.size)
    ⟨fun ⟨h1, h2, h3⟩ => ⟨h1, h2, h3⟩, fun hop => ⟨hop.refs, hop.frames, hop.slots⟩⟩

/-- What an operation does besides adding data. -/
def may : HeapOp → Effect → Prop
  | intern name => (· = .intern name.toUTF8.toList)
  | builtin _ index => (· = .procedure index)
  | define .. | assign .. | extend .. => (· = .bind)
  | setCar .. | setCdr .. | stringSet .. | vectorSet .. => (· = .update)
  | _ => fun _ => False

/-- How many roots an operation leaves in place. -/
def keeps (h : Heap) : HeapOp → Nat
  | setRoot slot _ => slot
  | releaseRoots count => count
  | listFromRoots base _ | vectorFromRoots base => base
  | _ => h.roots.size

/-- The frames that the operation captures. -/
def captured : HeapOp → List Ref
  | closure _ _ env .. => [env]
  | _ => []

/-- Each operation goes through sound heaps and does no more than it may. -/
theorem evolves_under (hs : h.Sound rules) (ho : (View.diagonal rules op.may h).Ordered)
    (hcaptured : rules.closures = true → ∀ r ∈ op.captured, h.memory.kind r = .environment)
    (hop : op.Valid h) : Evolves rules (op.keeps h) op.may h (op.apply h) := by
  have hv := Corr.diagonal hs op.may
  have hn : ∀ k, k ≤ h.roots.size → k ≤ (View.diagonal rules op.may h).left.roots.size :=
    fun _ hk => hk
  have hall := hn h.roots.size (Nat.le_refl _)
  have hrel : ∀ r ∈ op.refs, (View.diagonal rules op.may h).Rel r r := fun r hr =>
    View.diagonal_rel (hop.refs r hr)
  have hg : ∀ k s, (View.diagonal rules op.may h).guard = some s → s < k :=
    fun _ _ hs => nomatch hs
  have hne : ∀ i, (View.diagonal rules op.may h).guard ≠ some i := fun _ hs => nomatch hs
  have first : ∀ {a rest}, op.refs = a :: rest → (View.diagonal rules op.may h).Rel a a :=
    fun heq => hrel _ (heq ▸ .head _)
  have second : ∀ {a b rest}, op.refs = a :: b :: rest →
      (View.diagonal rules op.may h).Rel b b := fun heq => hrel _ (heq ▸ .tail _ (.head _))
  have third : ∀ {a b c rest}, op.refs = a :: b :: c :: rest →
      (View.diagonal rules op.may h).Rel c c :=
    fun heq => hrel _ (heq ▸ .tail _ (.tail _ (.head _)))
  cases op with
  | integer value => exact (Agrees.integer hv hall value).evolves
  | float bits => exact (Agrees.float hv hall bits).evolves
  | character c => exact (Agrees.character hv hall c).evolves
  | cons => exact (Agrees.cons hv hall (first rfl) (second rfl)).evolves
  | string text => exact (Agrees.string hv hall text).evolves
  | makeString length fill => exact (Agrees.makeString hv hall length fill).evolves
  | makeVector length => exact (Agrees.makeVector hv hall length (first rfl)).evolves
  | builtin _ index => exact (Agrees.builtin hv hall (first rfl) index rfl).evolves
  | closure _ _ _ d arity rest =>
    have hd := hrel d (List.mem_of_getLast? rfl)
    exact (Agrees.closure hv hall (first rfl) (second rfl) (third rfl) hd
      (fun hclosures => hcaptured hclosures _ (.head _)) arity rest).evolves
  | environment outer =>
    have houter : Option.Rel (View.diagonal rules (environment outer).may h).Rel outer outer := by
      cases outer with
      | none => exact .none
      | some r => exact .some (first rfl)
    exact (Agrees.environment hv hall houter fun r hr =>
      hop.frames r (Option.mem_toList.mpr hr)).evolves
  | tagged => exact (Agrees.tagged hv hall (first rfl) (second rfl)).evolves
  | intern name => exact (Agrees.internWith hv hall Text.digest name rfl).evolves
  | define =>
    exact (Agrees.define hv ho hall rfl (first rfl) (second rfl) (third rfl)).evolves
  | assign =>
    exact (Agrees.assign hv ho.aligned hall rfl (first rfl) (second rfl) (third rfl)).evolves
  | extend parent formals arity rest args =>
    exact (Agrees.extend hv ho hall rfl (first rfl) (hop.frames parent (.head _)) (second rfl) arity
      rest hop.slots (hg args)).evolves
  | setCar => exact (Agrees.setCar hv hall rfl (first rfl) (second rfl)).evolves
  | setCdr => exact (Agrees.setCdr hv hall rfl (first rfl) (second rfl)).evolves
  | stringSet _ index c => exact (Agrees.stringSet hv hall rfl (first rfl) index c).evolves
  | vectorSet _ index =>
    exact (Agrees.vectorSet hv hall rfl (first rfl) index (second rfl)).evolves
  | pushRoot => exact (hv.later_pushRoots (first rfl) hall).evolves
  | setRoot slot =>
    exact (hv.later_setRoots (first rfl) (hne slot) (hn _ (Nat.le_of_lt hop.slots))
      (Nat.le_refl _)).evolves
  | releaseRoots count =>
    exact (hv.later_releaseRoots (hg count) (hn _ hop.slots) (Nat.le_refl _)).evolves
  | listFromRoots base =>
    exact (Agrees.listFromRoots hv (hn _ hop.slots) (Nat.le_refl _) (hg base) (first rfl)).evolves
  | vectorFromRoots base =>
    exact (Agrees.vectorFromRoots hv (hn _ hop.slots) (Nat.le_refl _) (hg base)).evolves
  | collect => exact (Agrees.collect hv hall).evolves

/-- Without further rules any value may be captured. -/
theorem evolves (hs : h.Sound Rules.bare) (hop : op.Valid h) :
    Evolves Rules.bare (op.keeps h) op.may h (op.apply h) :=
  evolves_under hs (.of_none rfl) (fun hclosures => nomatch hclosures) hop

/-- Each operation keeps the heap sound. -/
theorem sound (hs : h.Sound Rules.bare) (hop : op.Valid h) : (op.apply h).Sound Rules.bare :=
  (evolves hs hop).sound_right

end HeapOp

/-- The heaps that operations lead to, from a new heap of the given size on. -/
inductive Reachable (size : UInt32) : Heap → Prop
  | start : Reachable size (Heap.new size.toNat)
  | step {h : Heap} {op : HeapOp} : Reachable size h → op.Valid h → Reachable size (op.apply h)

theorem Reachable.sound (hr : Reachable size h) : h.Sound Rules.bare := by
  induction hr with
  | start => exact .new (Nat.le_of_lt_succ size.toNat_lt) Rules.bare
  | step _ hop ih => exact HeapOp.sound ih hop

/-- A heap that is laid out as it should be: its records fill it from the start on, nothing in it
leads astray, and all their bytes have addresses of 32 bits within the memory. -/
structure Heap.Intact (h : Heap) : Prop where
  used_ge : 20 ≤ h.used
  used_le : h.used ≤ h.capacity
  capacity_le : h.capacity ≤ 4294967295
  memory : h.memory.size = h.capacity
  tiled : h.memory.Tiled h.used 0 h.records
  reference : ∀ r ∈ h.records, ∀ k ∈ h.memory.referenceFields r,
    (h.memory.field r k = absent ∧ (h.memory.kind r).mayBeAbsent k = true) ∨
      h.memory.field r k ∈ h.records
  root : ∀ r ∈ h.roots, r ∈ h.records
  symbols : h.symbols = absent ∨ h.symbols ∈ h.records
  unmarked : ∀ r ∈ h.records, h.memory.isMarked r = false
  singleton : ∀ r ∈ h.records, ∀ p ∈ fixtures, h.memory.kind r = p.2 ↔ r = p.1
  unwrapped : ∀ r ∈ h.records, h.memory.recordSize r = h.memory.extent r ∧
    ∀ k, fieldAddress r k + 4 ≤ r + h.memory.extent r → looseAddress r k = fieldAddress r k
  inside : ∀ r ∈ h.records, ∀ i < h.memory.extent r, r + i < h.capacity

theorem Heap.Sound.intact (hs : h.Sound rules) : h.Intact := by
  have hend : ∀ r : Nat, r ∈ h.records → r + h.memory.extent r ≤ h.top := fun r hr =>
    (hs.wf.tiled.bounds hr).2
  have htop := hs.wf.top_lt
  have hle := hs.wf.top_le
  refine ⟨?_, hle, hs.wf.capacity_le, rfl, hs.wf.tiled, ?_, hs.wf.root, hs.wf.symbols,
    hs.wf.unmarked, ?_, ?_, ?_⟩
  · obtain ⟨hmem, hk, -⟩ := hs.fixture (eof, .eof) (by decide)
    have := hend _ hmem
    rw [(extent_of_fixture (p := (eof, .eof)) (by decide) hk).1] at this
    exact this
  · exact fun r hr k hk => (hs.allowed r hr k hk).imp_right And.left
  · intro r hr p hp
    refine ⟨hs.unique r hr p hp, ?_⟩
    rintro rfl
    exact (hs.fixture p hp).2.1
  · intro r hr
    have := hend r hr
    refine ⟨recordSize_eq _ _ (by omega), fun k hk => looseAddress_of_lt ?_⟩
    unfold addressSpace
    omega
  · intro r hr i hi
    exact Nat.lt_of_lt_of_le (Nat.lt_of_lt_of_le (Nat.add_lt_add_left hi r) (hend r hr)) hle

/-- However operations follow each other, they leave an intact heap. -/
theorem reachable_intact {size : UInt32} {h : Heap} (hr : Reachable size h) : h.Intact :=
  hr.sound.intact

/-- Whether each operation is valid when its turn comes. -/
def HeapOp.ValidRun : Heap → List HeapOp → Prop
  | _, [] => True
  | h, op :: ops => op.Valid h ∧ ValidRun (op.apply h) ops

instance HeapOp.decidableValidRun : (h : Heap) → (ops : List HeapOp) → Decidable (ValidRun h ops)
  | _, [] => .isTrue trivial
  | h, op :: ops =>
    haveI := decidableValidRun (op.apply h) ops
    inferInstanceAs (Decidable (op.Valid h ∧ ValidRun (op.apply h) ops))

theorem Reachable.foldl {ops : List HeapOp} (hr : Reachable size h) (hops : HeapOp.ValidRun h ops) :
    Reachable size (ops.foldl HeapOp.apply h) := by
  induction ops generalizing h with
  | nil => exact hr
  | cons op ops ih => exact ih (hr.step hops.1) hops.2

/-- Valid operations lead from `h` to `g`. -/
def HeapOp.Leads (h g : Heap) : Prop := ∃ ops, HeapOp.ValidRun h ops ∧ ops.foldl HeapOp.apply h = g

namespace HeapOp.Leads

variable {h k g : Heap}

theorem refl (h : Heap) : Leads h h := ⟨[], trivial, rfl⟩

theorem single (op : HeapOp) (hop : op.Valid h) : Leads h (op.apply h) :=
  ⟨[op], ⟨hop, trivial⟩, rfl⟩

theorem trans (hl : Leads h k) (hl' : Leads k g) : Leads h g := by
  obtain ⟨ops, hops, rfl⟩ := hl
  obtain ⟨ops', hops', rfl⟩ := hl'
  refine ⟨ops ++ ops', ?_, List.foldl_append⟩
  induction ops generalizing h with
  | nil => exact hops'
  | cons op ops ih => exact ⟨hops.1, ih hops.2 hops'⟩

end HeapOp.Leads

/-- A pair that nothing leads to is collected, and another one is made to contain itself. -/
def HeapOp.sample : List HeapOp :=
  [.integer 7, .pushRoot 20, .cons 20 0, .collect, .cons 20 20, .setCdr 33 33, .pushRoot 33,
    .collect]

theorem reachable_intact_sample :
    HeapOp.ValidRun (Heap.new 0) HeapOp.sample ∧
      (HeapOp.sample.foldl HeapOp.apply (Heap.new 0)).Intact :=
  have hvalid : HeapOp.ValidRun (Heap.new 0) HeapOp.sample := by decide +kernel
  ⟨hvalid, reachable_intact ((.start : Reachable 0 _).foldl hvalid)⟩

end ArenaScheme
