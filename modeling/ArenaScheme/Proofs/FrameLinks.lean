import ArenaScheme.Proofs.Machines

/-! Only frames are used as frames. In every machine whose host evaluates in frames, closures hold
frames, frames lead to frames and to bindings, and so every search for a variable goes through frames
and bindings only. What is no frame is refused by a search, but not by a closure that is made in
it. -/

namespace ArenaScheme

open Memory Heap

namespace Heap

variable {rules : Rules} {h : Heap} {r frame symbol value : Nat}

/-- Whatever is walked through as a frame or a binding is one. -/
structure FramesLinked (h : Heap) : Prop where
  captured : ∀ r ∈ h.records, h.memory.kind r = .closure →
    h.memory.field r 2 ∈ h.records ∧ h.memory.kind (h.memory.field r 2) = .environment
  outer : ∀ r ∈ h.records, h.memory.kind r = .environment →
    h.LeadsTo .environment (h.memory.field r 0)
  bindings : ∀ r ∈ h.records, h.memory.kind r = .environment →
    h.LeadsTo .binding (h.memory.field r 1)
  subtree : ∀ r ∈ h.records, h.memory.kind r = .binding → ∀ k, k = 2 ∨ k = 3 →
    h.LeadsTo .binding (h.memory.field r k)

theorem Sound.framesLinked (hs : h.Sound rules) (hclosures : rules.closures = true) :
    h.FramesLinked where
  captured r hr hk := by
    rcases hs.allowed r hr 2 (by simp [referenceFields, hk]) with ⟨-, hmay⟩ | ⟨hmem, hfits⟩
    · rw [hk] at hmay
      cases hmay
    · rw [hk] at hfits
      exact ⟨hmem, hfits rfl hclosures⟩
  outer r hr hk := by
    refine (hs.allowed r hr 0 (by simp [referenceFields, hk])).imp And.left fun hlink => ?_
    obtain ⟨hmem, hfits⟩ := hlink
    rw [hk] at hfits
    exact ⟨hmem, hfits.1⟩
  bindings r hr hk := hs.leadsTo_binding hr (Or.inl ⟨hk, rfl⟩)
  subtree r hr hk k hside := hs.leadsTo_binding hr (Or.inr ⟨hk, hside⟩)

/-! Searches. -/

theorem Sound.findBindingFrom_kind (hs : h.Sound rules) (hf : h.FramesLinked) (symbol : Nat)
    {fuel node b : Nat} (hnode : h.LeadsTo .binding node)
    (hfind : h.findBindingFrom symbol fuel node = some b) :
    b ∈ h.records ∧ h.memory.kind b = .binding := by
  induction fuel generalizing node with
  | zero => cases hfind
  | succ fuel ih =>
    unfold findBindingFrom at hfind
    rcases hnode with rfl | ⟨hmem, hk⟩
    · rw [if_pos rfl] at hfind
      cases hfind
    · have hfield : ∀ k, k = 2 ∨ k = 3 → h.LeadsTo .binding (h.looseField node k) := fun k hk' => by
        rw [hs.looseField_eq hmem (field_end_le_extent (mem_binding_references hk (by omega)))]
        exact hf.subtree node hmem hk k hk'
      rw [if_neg (hs.wf.ne_absent hmem)] at hfind
      simp only at hfind
      split at hfind
      · cases hfind
        exact ⟨hmem, hk⟩
      · split at hfind
        · exact ih (hfield 2 (Or.inl rfl)) hfind
        · exact ih (hfield 3 (Or.inr rfl)) hfind

theorem Sound.findVisibleFrom_kind (hs : h.Sound rules) (hf : h.FramesLinked) (symbol : Nat)
    {fuel b : Nat} (hframe : h.LeadsTo .environment frame)
    (hfind : h.findVisibleFrom symbol fuel frame = some b) :
    b ∈ h.records ∧ h.memory.kind b = .binding := by
  induction fuel generalizing frame with
  | zero => cases hfind
  | succ fuel ih =>
    unfold findVisibleFrom at hfind
    rcases hframe with rfl | ⟨hmem, hk⟩
    · rw [if_pos rfl] at hfind
      cases hfind
    · have hextent : ∀ k < 2, h.looseField frame k = h.memory.field frame k := fun k hlt =>
        hs.looseField_eq hmem (field_end_le_extent (by
          rw [environment_references hk, List.mem_cons, List.mem_singleton]
          omega))
      rw [if_neg (hs.wf.ne_absent hmem)] at hfind
      split at hfind
      · rename_i node hnode
        cases hfind
        refine hs.findBindingFrom_kind hf symbol ?_ hnode
        rw [hextent 1 (by decide)]
        exact hf.bindings frame hmem hk
      · refine ih ?_ hfind
        rw [hextent 0 (by decide)]
        exact hf.outer frame hmem hk

/-- What a search finds is a binding. -/
theorem Sound.findVisible_kind (hs : h.Sound rules) (hf : h.FramesLinked) {b : Nat}
    (hframe : frame ∈ h.records) (hfind : h.findVisible frame symbol = .ok b) :
    b ∈ h.records ∧ h.memory.kind b = .binding := by
  unfold findVisible expectFrame expectKind at hfind
  by_cases hk : h.kind frame = .environment
  · rw [if_pos hk] at hfind
    simp only [bind, Except.bind] at hfind
    split at hfind
    · cases hfind
    · split at hfind
      · rename_i node hnode
        cases hfind
        exact hs.findVisibleFrom_kind hf symbol (Or.inr ⟨hframe, hk⟩) hnode
      · split at hfind <;> cases hfind
  · rw [if_neg hk] at hfind
    cases hfind

/-! What is no frame is refused. -/

section

variable (hk : h.memory.kind frame ≠ .environment)
include hk

theorem findVisible_of_kind_ne (symbol : Ref) :
    h.findVisible frame symbol = .error (.wrongType "environment" (h.typeName frame)) := by
  have hne : h.kind frame ≠ .environment := hk
  unfold findVisible expectFrame expectKind
  rw [if_neg hne]
  rfl

theorem lookup_of_kind_ne (symbol : Ref) :
    h.lookup frame symbol = .error (.wrongType "environment" (h.typeName frame)) := by
  unfold lookup
  rw [findVisible_of_kind_ne hk]
  rfl

theorem assign_of_kind_ne (symbol value : Ref) :
    HeapM.assign frame symbol value h =
      .error (.wrongType "environment" (h.typeName frame)) h := by
  unfold HeapM.assign HeapM.query
  simp only [bind, EStateM.bind, findVisible_of_kind_ne hk]

theorem define_of_kind_ne (hb : h.Bindable symbol) (value : Ref) :
    HeapM.define frame symbol value h =
      .error (.wrongType "environment" (h.typeName frame)) h := by
  have hframe : h.expectFrame frame = .error (.wrongType "environment" (h.typeName frame)) := by
    unfold expectFrame expectKind
    exact if_neg hk
  rw [HeapM.define_run, symbolName_eq_ok_iff.mpr ⟨hb.kind, rfl⟩]
  simp only [hb.free, hframe, Bool.false_eq_true, if_false]

end

end Heap

/-- In every machine whose host evaluates in frames only, whatever is walked through as a frame or a
binding is one, and searches find bindings. Searches in other records, and definitions and assignments
in them, fail and change nothing. -/
theorem frames_linked (size : UInt32) (m : Machine) :
    (Machine.Reachable size m → m.heap.FramesLinked ∧
      ∀ frame ∈ m.heap.records, ∀ symbol b, m.heap.findVisible frame symbol = .ok b →
        b ∈ m.heap.records ∧ m.heap.memory.kind b = .binding) ∧
    ∀ (h : Heap) (frame symbol value : Ref), h.memory.kind frame ≠ .environment →
      h.lookup frame symbol = .error (.wrongType "environment" (h.typeName frame)) ∧
      HeapM.assign frame symbol value h =
        .error (.wrongType "environment" (h.typeName frame)) h ∧
      (h.Bindable symbol → HeapM.define frame symbol value h =
        .error (.wrongType "environment" (h.typeName frame)) h) := by
  refine ⟨fun hr => ?_, fun h frame symbol value hk =>
    ⟨lookup_of_kind_ne hk symbol, assign_of_kind_ne hk symbol value,
      fun hb => define_of_kind_ne hk hb value⟩⟩
  have hs := hr.intact.sound
  have hf := hs.framesLinked rfl
  exact ⟨hf, fun frame hframe symbol b hfind => hs.findVisible_kind hf hframe hfind⟩

/-- A machine with the form `(lambda (x) x)` at 147 and the number five at 95. -/
def lambdaInNumber : Machine where
  heap := (Heap.new 0).after do
    let lambda ← HeapM.intern "lambda"
    let _ ← HeapM.intern "begin"
    let x ← HeapM.intern "x"
    let _ ← HeapM.integer 5
    let formals ← HeapM.cons x Heap.null
    let body ← HeapM.cons x Heap.null
    let rest ← HeapM.cons formals body
    HeapM.cons lambda rest
  keywords := { (default : Keywords) with
    forms := [(20, .lambda), (47, .begin)], lambda := 20, begin := 47 }
  globals := 0
  transformers := 0
  hostProcedures := #[]
  output := ""
  tracing := false

/-- A machine as it starts, and the number five in place of a frame. -/
theorem frames_linked_sample :
    (∃ m, Machine.start 0 = .ok m ∧ Machine.Reachable 0 m ∧ m.heap.FramesLinked) ∧
    lambdaInNumber.heap.memory.kind 95 ≠ .environment ∧ lambdaInNumber.heap.Bindable 73 ∧
    lambdaInNumber.heap.lookup 95 73 = .error (.wrongType "environment" "integer") ∧
    HeapM.assign 95 73 0 lambdaInNumber.heap =
      .error (.wrongType "environment" "integer") lambdaInNumber.heap ∧
    HeapM.define 95 73 0 lambdaInNumber.heap =
      .error (.wrongType "environment" "integer") lambdaInNumber.heap := by
  obtain ⟨m, hstart, -⟩ := Machine.exists_start 0
  have hr : Machine.Reachable 0 m := .start hstart
  have hk : lambdaInNumber.heap.memory.kind 95 ≠ .environment := by decide +kernel
  have hb : lambdaInNumber.heap.Bindable 73 := ⟨by decide +kernel, by decide +kernel⟩
  have htype : lambdaInNumber.heap.typeName 95 = "integer" := by decide +kernel
  obtain ⟨hlinked, hother⟩ := frames_linked 0 m
  obtain ⟨hlookup, hassign, hdefine⟩ := hother lambdaInNumber.heap 95 73 0 hk
  rw [htype] at hlookup hassign hdefine
  exact ⟨⟨m, hstart, hr, (hlinked hr).1⟩, hk, hb, hlookup, hassign, hdefine hb⟩

/-- The number is taken for the frame of the closure. -/
theorem closure_captures_number :
    ∃ r m, evaluate (interpreter 10) 147 95 lambdaInNumber = .ok r m ∧
      m.heap.memory.kind r = .closure ∧
      m.heap.memory.kind (m.heap.memory.field r 2) = .integer := by
  have hrun : (do
      let r ← evaluate (interpreter 10) 147 95
      let m ← get
      return (m.heap.memory.kind r, m.heap.memory.kind (m.heap.memory.field r 2))).run'
        lambdaInNumber = some (.closure, .integer) := by decide +kernel
  simp only [EStateM.run', EStateM.run, bind, EStateM.bind] at hrun
  cases h : evaluate (interpreter 10) 147 95 lambdaInNumber with
  | ok r m =>
    rw [h] at hrun
    obtain ⟨hclosure, hframe⟩ := Prod.ext_iff.mp (Option.some.inj hrun)
    exact ⟨r, m, rfl, hclosure, hframe⟩
  | error stop m =>
    rw [h] at hrun
    cases hrun

end ArenaScheme
