import ArenaScheme.Proofs.Machines

/-! The root stack is balanced. Whatever a computation does and however it ends, the stack has the
height it had before, and each slot below still holds its record. A loop of tail calls comes back
to the same height before each of its turns. -/

namespace ArenaScheme

open Memory Heap HeapM Eval

namespace Machine

variable {m k k' : Machine} {n form env j : Nat} {α β : Type} {table : Procedures}

/-- `m'` has the root stack of `m`: as many slots, and in them the records of `m`, wherever these
have been moved since. -/
structure Balanced (m m' : Machine) : Prop where
  height : m'.heap.roots.size = m.heap.roots.size
  slots : Becomes m.heap.roots.size m m'

theorem Becomes.of_le (hb : Becomes n m k) (hj : j ≤ n) : Becomes j m k :=
  ⟨hb.evolves.mono hj, hb.same⟩

theorem Becomes.trans (hb : Becomes n m k) (hb' : Becomes n k k') : Becomes n m k' := by
  have hrules : k.rules = m.rules := by rw [hb.same]; rfl
  have hevolves := hb'.evolves
  rw [hrules] at hevolves
  refine ⟨hb.evolves.trans hevolves, ?_⟩
  rw [hb'.same, hb.same]

/-! No computation leaves roots of its own. -/

/-- The computation ends with no more roots than there were. -/
def Shallow (x : Eval α) : Prop :=
  ∀ m : Machine, (m.after x).heap.roots.size ≤ m.heap.roots.size

theorem after_keepingRoots (m : Machine) (x : Eval α) :
    m.after (keepingRoots x) = (m.after x).after (onHeap (releaseRoots m.heap.roots.size)) := by
  have hrun : keepingRoots x m =
      (tryFinally x (onHeap (releaseRoots m.heap.roots.size)) : Eval α) m := rfl
  unfold after
  rw [hrun]
  simp only [tryFinally, tryFinally', Functor.map, EStateM.map]
  cases x m <;> rfl

namespace Shallow

theorem keepingRoots (x : Eval α) : Shallow (Eval.keepingRoots x) := by
  intro m
  rw [after_keepingRoots]
  change ((m.after x).heap.roots.shrink m.heap.roots.size).size ≤ _
  rw [Array.size_shrink]
  exact Nat.min_le_left _ _

theorem bind {x : Eval α} {f : α → Eval β} (hx : Shallow x) (hf : ∀ a, Shallow (f a)) :
    Shallow (x >>= f) := by
  intro m
  have hfirst := hx m
  cases hrun : x m with
  | ok a k =>
    rw [after_eq_ok hrun] at hfirst
    rw [after_bind_of_ok hrun]
    exact Nat.le_trans (hf a k) hfirst
  | error stop k =>
    rw [after_eq_error hrun] at hfirst
    rw [after_bind_of_error hrun]
    exact hfirst

theorem trace (event : Heap → Event) : Shallow (Eval.trace event) := by
  intro m
  unfold after Eval.trace
  cases htracing : m.tracing <;>
    simp [htracing, Bind.bind, EStateM.bind, get, getThe, MonadStateOf.get, EStateM.get, pure,
      EStateM.pure]
  exact Nat.le_refl _

theorem evalForm (fuel : Nat) (form : Ref) :
    Shallow (ArenaScheme.evalForm (interpreterWith table fuel) form) := by
  cases fuel with
  | zero => exact fun m => Nat.le_refl _
  | succ fuel =>
    exact (keepingRoots _).bind fun _ => (trace _).bind fun _ m => keepingRoots _ m

theorem call (fuel : Nat) (call : Call) : Shallow (call.run (interpreterWith table fuel)) := by
  cases call with
  | evalForm form => exact evalForm fuel form
  | _ => exact keepingRoots _

end Shallow

theorem Call.balanced (htable : table.Alike (fun _ => True) fun _ => True) {call : Call}
    (hm : m.Intact) (hcall : call.Valid m) (fuel : Nat) :
    Balanced m (m.after (call.run (interpreterWith table fuel))) := by
  have hbecomes := call.becomes htable hm hcall fuel
  exact ⟨Nat.le_antisymm (Shallow.call fuel call m) hbecomes.evolves.size_right, hbecomes⟩

/-! The turns of a loop. -/

/-- Puts the next form and the next frame into their slots and drops all roots above. -/
def nextTurn (form env : Slot) (nextForm nextEnv : Ref) : Eval Unit := do
  setRoot form nextForm
  setRoot env nextEnv
  releaseRoots (env + 1)

/-- What is done after a turn of which the loop may take `rounds` more. -/
def afterTurn (calls : Calls) (form env : Slot) (rounds : Nat) : Step → Eval Ref
  | .done value => return value
  | .tail nextForm nextEnv => do
    setRoot form nextForm
    setRoot env nextEnv
    evalLoop calls form env rounds

/-- The machines at the head of each turn that the evaluator's loop takes from `m` on, with the
number of turns before. -/
inductive Head (calls : Calls) (form env : Slot) (m : Machine) : Nat → Machine → Prop
  | first : Head calls form env m 0 (m.after (onHeap (releaseRoots (env + 1))))
  | next {j : Nat} {k k' : Machine} {nextForm nextEnv : Ref} : Head calls form env m j k →
    evalTurn calls form env k = .ok (.tail nextForm nextEnv) k' →
    Head calls form env m (j + 1) (k'.after (nextTurn form env nextForm nextEnv))

/-- These are the machines with which the loop goes on. -/
theorem Head.evalLoop_eq {calls : Calls} (hk : Head calls form env m j k) (rounds : Nat) :
    evalLoop calls form env (j + rounds + 1) m =
      (evalTurn calls form env >>= afterTurn calls form env rounds) k := by
  induction hk generalizing rounds with
  | first =>
    rw [Nat.zero_add]
    rfl
  | @next j k k' nextForm nextEnv _ hturn ih =>
    rw [Nat.add_right_comm j 1 rounds, Nat.add_assoc j rounds 1, ih (rounds + 1)]
    change EStateM.bind (evalTurn calls form env) _ k = _
    rw [EStateM.bind, hturn]
    rfl

/-- A machine at the head of a turn: the slot of the frame is the last one. -/
structure AtHead (env : Slot) (k : Machine) : Prop where
  intact : k.Intact
  height : k.heap.roots.size = env + 1
  frame : k.view.slotKind env = .environment

/-- Dropping all roots above the two slots leads to the head of a turn. -/
theorem releaseRoots_runs {v : View} (hs : Stands (fun _ => True) m v) (hn : n ≤ env + 1)
    (hclear : v.Clear (env + 1)) (hlt : env < v.left.roots.size) (hframe : v.slotKind env = .environment) :
    Runs n m v (fun w _ _ => w.left.roots.size = env + 1 ∧ w.slotKind env = .environment)
      (onHeap (releaseRoots (env + 1))) (onHeap (releaseRoots (env + 1))) := by
  intro out
  have hreleased := hs.rootsReleased hclear
  refine .ok (v.releaseRoots (env + 1)) out hreleased.corr
    (hs.later_releaseRoots hclear (by omega) hn) ⟨?_, ?_⟩
  · rw [hreleased.size]
    exact Nat.min_eq_left hlt
  · rw [hreleased.slot env (Nat.lt_succ_self _)]
    exact hframe

/-- A computation that leads to the head of a turn. -/
theorem AtHead.of_runs {x : Eval Unit} (hm : m.Intact)
    (h : Runs n m m.view
      (fun w _ _ => w.left.roots.size = env + 1 ∧ w.slotKind env = .environment) x x)
    (hrun : x m = .ok () k) : AtHead env k ∧ Becomes n m k := by
  have hbecomes := becomes_of_runs h
  rw [after_eq_ok hrun] at hbecomes
  obtain ⟨w, -, hw, -, -, hheight, hframe⟩ := post_of_runs h hrun
  unfold View.slotKind at hframe
  rw [hw] at hheight hframe
  exact ⟨⟨hbecomes.intact hm, hheight, hframe⟩, hbecomes⟩

theorem AtHead.framed (hk : AtHead env k) (horder : form < env) :
    Framed (fun _ => True) k k.view form env where
  toStands := hk.intact.stands
  clear _ hs := nomatch hs
  order := horder
  lt := Nat.lt_of_lt_of_eq (Nat.lt_succ_self env) hk.height.symm
  frame := hk.frame

theorem Intact.nextTurn (hk : k.Intact) (horder : form < env) (hlt : env < k.heap.roots.size)
    {nextForm nextEnv : Ref} (hform : nextForm ∈ k.heap.records) (henv : nextEnv ∈ k.heap.records)
    (hframe : k.heap.memory.kind nextEnv = .environment) :
    AtHead env (k.after (nextTurn form env nextForm nextEnv)) ∧
      Becomes form k (k.after (nextTurn form env nextForm nextEnv)) := by
  refine AtHead.of_runs (x := Machine.nextTurn form env nextForm nextEnv) hk ?_ rfl
  have hfree : ∀ i, k.view.guard ≠ some i := fun i h => nomatch h
  have hsize : k.view.left.roots.size = k.heap.roots.size := rfl
  refine Runs.setRoot_bind hk.stands (by omega) (Nat.le_refl _) (hfree _)
    (View.diagonal_rel hform) fun v₁ hs₁ hset₁ => ?_
  have hsize₁ := hset₁.size
  refine Runs.setRoot_bind hs₁ (by omega) (Nat.le_of_lt horder) (hset₁.guard ▸ hfree _)
    (hset₁.rel _ _ (View.diagonal_rel henv)) fun v₂ hs₂ hset₂ => ?_
  have hsize₂ := hset₂.size
  refine releaseRoots_runs hs₂ (by omega) (fun s hs => ?_) (by omega) ?_
  · rw [hset₂.guard, hset₁.guard] at hs
    exact absurd hs (hfree s)
  · rw [hset₂.self (by omega), hset₁.kind]
    exact hframe

/-- What a turn leaves to do stands at the head of the next turn. -/
theorem AtHead.next (htable : table.Alike (fun _ => True) fun _ => True) {nextForm nextEnv : Ref}
    (hk : AtHead env k) (horder : form < env) (fuel : Nat)
    (hturn : evalTurn (interpreterWith table fuel) form env k = .ok (.tail nextForm nextEnv) k') :
    AtHead env (k'.after (nextTurn form env nextForm nextEnv)) ∧
      Becomes form k (k'.after (nextTurn form env nextForm nextEnv)) := by
  have hruns := Runs.evalTurn (callsAlike_interpreterWith htable fuel k) (hk.framed horder)
  have hturned := becomes_of_runs hruns
  rw [after_eq_ok hturn] at hturned
  obtain ⟨w, b, hw, hcorr, -, halike⟩ := post_of_runs hruns hturn
  cases halike with
  | tail hform henv hframe =>
    obtain ⟨hhead, hbecomes⟩ := (hturned.intact hk.intact).nextTurn horder
      hturned.evolves.size_right (hw ▸ hcorr.mem_left hform.1) (hw ▸ hcorr.mem_left henv.1)
      (hw ▸ hframe)
    exact ⟨hhead, (hturned.of_le (Nat.le_of_lt (Nat.lt_succ_of_lt horder))).trans hbecomes⟩

/-- The machine in which the evaluation of a form begins its loop. -/
def entering (m : Machine) (form env : Ref) : Machine :=
  { m with heap.roots := (m.heap.roots.push form).push env }

theorem evaluate_eq_evalLoop (calls : Calls) (m : Machine) (form env : Ref) :
    evaluate calls form env m = keepingRoots (fun _ => evalLoop calls m.heap.roots.size
      (m.heap.roots.size + 1) calls.rounds (m.entering form env)) m := by
  have hslot : (m.heap.roots.push form).size = m.heap.roots.size + 1 := Array.size_push _
  rw [← hslot]
  rfl

theorem Intact.firstTurn {a c : Ref} (hm : m.Intact) (hcall : (Call.evaluate a c).Valid m) :
    AtHead (m.heap.roots.size + 1)
        ((m.entering a c).after (onHeap (releaseRoots (m.heap.roots.size + 1 + 1)))) ∧
      Becomes m.heap.roots.size m
        ((m.entering a c).after (onHeap (releaseRoots (m.heap.roots.size + 1 + 1)))) := by
  let enter : Eval Unit := do
    let _ ← pushRoot a
    let _ ← pushRoot c
    releaseRoots (m.heap.roots.size + 1 + 1)
  refine AtHead.of_runs (x := enter) hm ?_ rfl
  refine Runs.pushRoot_bind hm.stands (Nat.le_refl _) (View.diagonal_rel (hcall.refs a (.head _)))
    fun v₁ hs₁ hp₁ => ?_
  have hsize₁ : v₁.left.roots.size = m.heap.roots.size + 1 := hp₁.size
  refine Runs.pushRoot_bind hs₁ (by omega)
    (hp₁.rel _ _ (View.diagonal_rel (hcall.refs c (.tail _ (.head _))))) fun v₂ hs₂ hp₂ => ?_
  have hsize₂ := hp₂.size
  refine releaseRoots_runs hs₂ (by omega) (fun s hs => ?_) (by omega) ?_
  · rw [hp₂.guard, hp₁.guard] at hs
    cases hs
  · rw [← hsize₁, hp₂.self, hp₁.kind]
    exact hcall.frames c (.head _)

/-- Every turn begins at the height at which the first one began. -/
theorem Head.atHead (htable : table.Alike (fun _ => True) fun _ => True) {a c : Ref} {fuel : Nat}
    (hm : m.Intact) (hcall : (Call.evaluate a c).Valid m)
    (hk : Head (interpreterWith table fuel) m.heap.roots.size (m.heap.roots.size + 1)
      (m.entering a c) j k) :
    AtHead (m.heap.roots.size + 1) k ∧ Becomes m.heap.roots.size m k := by
  induction hk with
  | first => exact hm.firstTurn hcall
  | next _ hturn ih =>
    obtain ⟨hhead, hbecomes⟩ := ih.1.next htable (Nat.lt_succ_self _) fuel hturn
    exact ⟨hhead, ih.2.trans hbecomes⟩

end Machine

open Machine

/-- A procedure that doubles an integer and leaves its argument on the root stack. -/
def doubling : Procedures := fun _ _ args => do
  let _ ← pushRoot (args.headD null)
  let n ← query (·.expectInteger (args.headD null))
  return .done (← integer (n * 2))

theorem considerate_doubling : Considerate doubling := by
  intro calls _ m hm index args hargs
  have hfirst : args.headD null ∈ m.heap.records := by
    cases args with
    | nil => exact hm.stands.mem_left hm.stands.rel_null.1
    | cons r args => exact hargs r (.head _)
  have hruns : Runs m.heap.roots.size m m.view Step.Alike (doubling calls index args)
      (doubling calls index args) := by
    refine Runs.pushRoot_bind hm.stands (Nat.le_refl _) (View.diagonal_rel hfirst) fun v hv hp => ?_
    have hsize : m.heap.roots.size ≤ v.left.roots.size := by
      rw [hp.size]
      exact Nat.le_succ _
    refine Runs.query_bind hv hsize (hv.expectInteger (hp.rel _ _ (View.diagonal_rel hfirst)))
      fun a b hab => ?_
    subst hab
    exact .done hv (.made (Agrees.integer hv.toCorr hsize _))
  exact respects_of_runs hruns fun _ _ _ => stepFits_of_alike

end ArenaScheme
