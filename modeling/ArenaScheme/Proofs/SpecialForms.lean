import ArenaScheme.Evaluation.SpecialForms
import ArenaScheme.Proofs.Primitives

/-! Special forms run alike. The form and its frame stand in two slots; they are read again after
every evaluation, when both heaps may have moved them. -/

namespace ArenaScheme

open Memory Heap

variable {may : Effect → Prop}

namespace Runs

variable {n : Nat} {m : Machine} {v : View} {a b c d : Nat} {γ δ : Type}
  {last : View → γ → δ → Prop}

theorem pushParameters (hm : Stands may m v) (hn : n ≤ v.left.roots.size) (rounds : Nat)
    (hformals : v.Rel a b) :
    Runs n m v (fun _ x y => x = y) (ArenaScheme.pushParameters rounds a)
      (ArenaScheme.pushParameters rounds b) := by
  induction rounds generalizing v a b with
  | zero => exact throw hm hn rfl
  | succ rounds ih =>
    have hpushed : ∀ {c w}, RootPushed v c w → n ≤ w.left.roots.size := fun hw => by
      rw [hw.size]
      omega
    refine object_bind hm hformals fun o o' _ halike => ?_
    cases halike with
    | null => exact pure hm hn rfl
    | symbol => exact pushRoot_bind hm hn hformals fun w hw hpush => pure hw (hpushed hpush) rfl
    | @pair car car' cdr cdr' hcar hcdr =>
      refine get_bind fun out => ite_iff ?_ (fun _ => ?_) fun _ => throw hm hn rfl
      · simp only [Heap.isSymbol, Heap.kind, hm.kind_eq hcar]
      · exact pushRoot_bind hm hn hcar fun w hw hpush =>
          ih hw (hpushed hpush) (hpush.rel _ _ hcdr)
    | _ => exact throw hm hn rfl

theorem makeClosure {name name' formals formals' body body' env env' : Nat} (hm : Stands may m v)
    (hn : n ≤ v.left.roots.size) (rounds : Nat) (hname : v.Rel name name')
    (hformals : v.Rel formals formals') (hbody : v.Rel body body') (henv : v.Rel env env')
    (hkind : v.left.memory.kind env = .environment) :
    Runs n m v (Returned v) (ArenaScheme.makeClosure rounds name formals body env)
      (ArenaScheme.makeClosure rounds name' formals' body' env') := by
  refine ite_iff (hm.eq_null_iff hbody) (fun _ => throw hm hn rfl) fun _ => ?_
  refine rootCount_bind hm hn ?_
  generalize hbase : v.left.roots.size = base at hn ⊢
  have hclear : v.Clear base := hbase ▸ hm.clear
  refine pushRoot_bind hm (by omega) hname fun v₁ hm₁ hp₁ => ?_
  refine pushRoot_bind hm₁ (by rw [hp₁.size]; omega) (hp₁.rel _ _ hbody) fun v₂ hm₂ hp₂ => ?_
  refine pushRoot_bind hm₂ (by rw [hp₂.size, hp₁.size]; omega)
    (hp₂.rel _ _ (hp₁.rel _ _ henv)) fun v₃ hm₃ hp₃ => ?_
  have hsize : v₃.left.roots.size = base + 3 := by rw [hp₃.size, hp₂.size, hp₁.size, hbase]
  have hclear₃ : v₃.Clear base := hp₃.clear (hp₂.clear (hp₁.clear hclear))
  have hframe : v₃.slotKind (base + 2) = .environment := by
    have := hp₃.self
    rw [hp₂.size, hp₁.size, hbase, hp₂.kind, hp₁.kind] at this
    exact this.trans hkind
  rw [hp₂.size, hp₁.size, hbase]
  refine rootCount_bind hm₃ (by omega) ?_
  rw [hsize]
  have hparameters := pushParameters hm₃ (Nat.le_refl _) rounds
    (hp₃.rel _ _ (hp₂.rel _ _ (hp₁.rel _ _ hformals)))
  rw [hsize] at hparameters
  refine hparameters.bind_of_le hm₃ (by omega) fun v₄ rest _ hm₄ hl₄ heq => ?_
  subst heq
  refine rootCount_bind hm₄ (by have := hl₄.size; omega) ?_
  have hclear₄ := hclear₃.later hl₄
  have hlist : Runs (base + 3) m v₄ _ _ _ := onHeap (Agrees.listFromRoots hm₄.toCorr hl₄.size
    (Nat.le_refl _) (hclear₄.mono (by omega)) hm₄.rel_null)
  refine hlist.bind_of_le hm₄ (by omega) fun v₅ list list' hm₅ hl₅ ⟨hrel, hsize₅⟩ => ?_
  rw [Nat.min_eq_left hl₄.size] at hsize₅
  refine pushRoot_bind hm₅ (by omega) hrel fun v₆ hm₆ hp₆ => ?_
  have hsize₆ : v₆.left.roots.size = base + 4 := by rw [hp₆.size, hsize₅]
  have hclear₆ : v₆.Clear base := hp₆.clear (hclear₄.later hl₅)
  have hframe₆ : v₆.slotKind (base + 2) = .environment := by
    rw [hp₆.slot _ (by omega), hl₅.slot (by omega), hl₄.slot (by omega), hframe]
  rw [hsize₅]
  refine get_bind fun out => root_bind hm₆ (hclear₆.ne (by omega)) fun hbody₆ => ?_
  have hbegin : v₆.Rel m.keywords.begin m.keywords.begin :=
    hm₆.rel_keyword (by simp [Keywords.symbols])
  have hcons : Runs (base + 4) m v₆ _ _ _ :=
    onHeap (Agrees.cons hm₆.toCorr (by omega) hbegin hbody₆)
  refine hcons.bind_of_le hm₆ (by omega) fun v₇ form form' hm₇ hl₇ hmade => ?_
  have hclear₇ := hclear₆.later hl₇
  refine root_bind hm₇ (hclear₇.ne (by omega)) fun hname₇ => ?_
  refine root_bind hm₇ (hclear₇.ne (by omega)) fun hformals₇ => ?_
  refine root_bind hm₇ (hclear₇.ne (by omega)) fun henv₇ => ?_
  have hclosure := Agrees.closure (n := n) hm₇.toCorr (by have := hl₇.size; omega) hname₇ hformals₇
    henv₇ hmade.rel (fun _ => (hl₇.slot (by omega)).trans hframe₆)
    (v₄.left.roots.size - (base + 3)) rest
  refine onHeap_bind hm₇ hclosure fun v₈ r s hm₈ hl₈ hmade₈ => ?_
  refine releaseRoots_bind hm₈ hl₈.size hn (hclear₇.later hl₈) fun v₉ hm₉ hr₉ => ?_
  have hsize₉ : v₉.left.roots.size = base := by
    rw [hr₉.size, hmade₈.roots, hmade.roots, hsize₆]
    omega
  exact pure hm₉ (by omega) ⟨hr₉.rel _ _ hmade₈.rel, hsize₉.trans hbase.symm⟩

end Runs

/-- A form and its frame stand in two slots, which are out of guard. -/
structure Framed (may : Effect → Prop) (m : Machine) (v : View) (form env : Nat) : Prop
    extends Stands may m v where
  clear : v.Clear form
  order : form < env
  lt : env < v.left.roots.size
  frame : v.slotKind env = .environment

namespace Framed

variable {m : Machine} {v w : View} {form env a i : Nat}

section

variable (hf : Framed may m v form env) (hw : Stands may m w)
include hf hw

theorem later (h : Later (env + 1) v w) :
    Framed may m w form env :=
  ⟨hw, hf.clear.later h, hf.order, h.size, (h.slot (Nat.lt_succ_self _)).trans hf.frame⟩

theorem pushed (h : RootPushed v a w) :
    Framed may m w form env :=
  ⟨hw, h.clear hf.clear, hf.order, h.size ▸ Nat.lt_succ_of_lt hf.lt,
    (h.slot env hf.lt).trans hf.frame⟩

theorem rootSet (h : RootSet v i a w) (hi : env < i) :
    Framed may m w form env :=
  ⟨hw, h.clear hf.clear, hf.order, h.size ▸ hf.lt,
    (h.slot env (Nat.ne_of_lt hi)).trans hf.frame⟩

end

end Framed

namespace Runs

variable {m : Machine} {v : View} {calls : Calls} {form env : Nat} {γ δ : Type}
  {last : View → γ → δ → Prop}

/-- The frame in its slot. -/
theorem frame_bind {f : Nat → Eval γ} {g : Nat → Eval δ} (hf : Framed may m v form env)
    (h : v.Rel (v.left.root env) (v.right.root env) →
      v.left.memory.kind (v.left.root env) = .environment →
      Runs (env + 1) m v last (f (v.left.root env)) (g (v.right.root env))) :
    Runs (env + 1) m v last (Eval.onHeap (HeapM.root env) >>= f)
      (Eval.onHeap (HeapM.root env) >>= g) :=
  root_bind hf.toStands (hf.clear.ne (Nat.le_of_lt hf.order)) fun hrel => h hrel hf.frame

theorem operandsOf_bind {f : Nat → Eval γ} {g : Nat → Eval δ} (hf : Framed may m v form env)
    (h : ∀ a b, v.Rel a b → Runs (env + 1) m v last (f a) (g b)) :
    Runs (env + 1) m v last (operandsOf form >>= f) (operandsOf form >>= g) := by
  unfold operandsOf
  simp only [bind_assoc]
  refine root_bind hf.toStands (hf.clear.ne (Nat.le_refl _)) fun hform => ?_
  exact query_bind hf.toStands hf.lt (hf.cdr hform) h

theorem exactOperands_bind {f : Option (List Ref) → Eval γ} {g : Option (List Ref) → Eval δ}
    (count : Nat) (hf : Framed may m v form env)
    (h : ∀ o o', Option.Rel (List.Forall₂ v.Rel) o o' →
      Runs (env + 1) m v last (f o) (g o')) :
    Runs (env + 1) m v last (exactOperands count form >>= f) (exactOperands count form >>= g) := by
  unfold exactOperands
  simp only [bind_assoc, pure_bind]
  exact operandsOf_bind hf fun a b hab => get_bind fun _ => h _ _ (hf.exactly count hab)

section

variable (hcalls : CallsAlike may m calls) (hf : Framed may m v form env)
include hcalls hf

/-- An evaluation leaves the form and its frame where they are. -/
theorem evaluate_bind {f : Nat → Eval γ} {g : Nat → Eval δ} {a b c d : Nat} (hab : v.Rel a b)
    (hcd : v.Rel c d) (hk : v.left.memory.kind c = .environment)
    (h : ∀ w x y, Framed may m w form env → w.left.roots.size = v.left.roots.size → w.Rel x y →
      Runs (env + 1) m w last (f x) (g y)) :
    Runs (env + 1) m v last (calls.evaluate a c >>= f) (calls.evaluate b d >>= g) :=
  (hcalls.evaluate hf.toStands hab hcd hk).bind_of_le hf.toStands hf.lt
    fun w x y hw hlater hret => h w x y (hf.later hw (hlater.mono hf.lt)) hret.2 hret.1

theorem evalBranch :
    Runs (env + 1) m v Step.Alike (ArenaScheme.evalBranch calls form env)
      (ArenaScheme.evalBranch calls form env) := by
  refine exactOperands_bind 3 hf fun o o' hoperands => ?_
  match hoperands with
  | .some (.cons htest (.cons _ (.cons _ .nil))) =>
    refine frame_bind hf fun henv hk => ?_
    refine evaluate_bind hcalls hf htest henv hk fun w x y hw _ hxy => ?_
    refine exactOperands_bind 3 hw fun o o' hoperands => ?_
    match hoperands with
    | .some (.cons _ (.cons hthen (.cons helse .nil))) =>
      refine frame_bind hw fun henv hk => pure hw.toStands hw.lt (.tail ?_ henv hk)
      have hfalse : w.Rel falsity falsity := hw.rel_boolean false
      have htrue : Heap.isTrue x = Heap.isTrue y := by
        rw [Heap.isTrue, Heap.isTrue, Bool.eq_iff_iff, bne_iff_ne, bne_iff_ne]
        exact not_congr (hw.eq_iff hxy hfalse)
      rw [htrue]
      cases Heap.isTrue y with
      | true => exact hthen
      | false => exact helse
    | .none | .some .nil | .some (.cons _ .nil) | .some (.cons _ (.cons _ .nil))
    | .some (.cons _ (.cons _ (.cons _ (.cons _ _)))) => exact throw hw.toStands hw.lt rfl
  | .none | .some .nil | .some (.cons _ .nil) | .some (.cons _ (.cons _ .nil))
  | .some (.cons _ (.cons _ (.cons _ (.cons _ _)))) => exact throw hf.toStands hf.lt rfl

/-- The list in slot `body` gets shorter until its last form is left. -/
theorem evalSequence {body : Nat} (hbody : env < body) (hlt : body < v.left.roots.size)
    (rounds : Nat) :
    Runs (env + 1) m v Step.Alike (ArenaScheme.evalSequence calls body env rounds)
      (ArenaScheme.evalSequence calls body env rounds) := by
  induction rounds generalizing v with
  | zero => exact throw hf.toStands hf.lt rfl
  | succ rounds ih =>
    have hfree : ∀ {w}, Framed may m w form env → w.guard ≠ some body := fun hw =>
      hw.clear.ne (Nat.le_of_lt (Nat.lt_trans hf.order hbody))
    refine root_bind hf.toStands (hfree hf) fun hlist => ?_
    refine object_bind hf.toStands hlist fun o o' _ halike => ?_
    cases halike with
    | pair hform hrest =>
      refine frame_bind hf fun henv hk => ite_iff (hf.eq_null_iff hrest)
        (fun _ => pure hf.toStands hf.lt (.tail hform henv hk)) fun _ => ?_
      refine evaluate_bind hcalls hf hform henv hk fun w _ _ hw hsize _ => ?_
      refine root_bind hw.toStands (hfree hw) fun hlist => ?_
      refine query_bind hw.toStands hw.lt (hw.cdr hlist) fun _ _ hcdr => ?_
      exact setRoot_bind hw.toStands hw.lt hbody (hfree hw) hcdr fun u hu hset =>
        ih (hw.rootSet hu hset hbody) (by rw [hset.size, hsize]; exact hlt)
    | _ => exact throw hf.toStands hf.lt rfl

theorem evalAssign :
    Runs (env + 1) m v Step.Alike (ArenaScheme.evalAssign calls form env)
      (ArenaScheme.evalAssign calls form env) := by
  refine exactOperands_bind 2 hf fun o o' hoperands => ?_
  match hoperands with
  | .some (.cons htarget (.cons hexpression .nil)) =>
    refine query_bind hf.toStands hf.lt (hf.expectSymbol htarget) fun _ _ _ => ?_
    refine frame_bind hf fun henv hk => ?_
    refine evaluate_bind hcalls hf hexpression henv hk fun w x y hw _ hxy => ?_
    refine operandsOf_bind hw fun _ _ hoperands => ?_
    refine query_bind hw.toStands hw.lt (hw.car hoperands) fun _ _ htarget => ?_
    refine frame_bind hw fun henv _ => ?_
    exact onHeap_bind hw.toStands
      (Agrees.assign hw.toCorr hw.ordered.aligned hw.lt (hw.may _ (.inl trivial)) henv htarget hxy)
      fun u _ _ hu hlater _ => done hu (undefined hu hlater.size)
  | .none | .some .nil | .some (.cons _ .nil) | .some (.cons _ (.cons _ (.cons _ _))) =>
    exact throw hf.toStands hf.lt rfl

end

theorem evalLambda (hf : Framed may m v form env) :
    Runs (env + 1) m v Step.Alike (ArenaScheme.evalLambda calls form env)
      (ArenaScheme.evalLambda calls form env) := by
  refine operandsOf_bind hf fun a b hoperands => ?_
  refine object_bind hf.toStands hoperands fun o o' _ halike => ?_
  cases halike with
  | pair hformals hbody =>
    have hname : v.Rel m.keywords.lambda m.keywords.lambda :=
      hf.rel_keyword (by simp [Keywords.symbols])
    refine get_bind fun out => frame_bind hf fun henv hk => done hf.toStands ?_
    exact (makeClosure hf.toStands hf.lt _ hname hformals hbody henv hk).mono hf.toStands
      (Nat.le_refl _) fun _ _ _ _ _ hret => hret.1
  | _ => exact throw hf.toStands hf.lt rfl

/-- The end of every definition. -/
theorem defined {a b c d t u : Nat} (hf : Framed may m v form env) (henv : v.Rel a b)
    (hname : v.Rel c d) (hvalue : v.Rel t u) :
    Runs (env + 1) m v Step.Alike
      (do Eval.onHeap (HeapM.define a c t); return .done (← Eval.undefined))
      (do Eval.onHeap (HeapM.define b d u); return .done (← Eval.undefined)) :=
  onHeap_bind hf.toStands
    (Agrees.define hf.toCorr hf.ordered hf.lt (hf.may _ (.inl trivial)) henv hname hvalue) fun _ _ _ hw hlater _ => done hw (undefined hw hlater.size)

theorem evalDefine (hcalls : CallsAlike may m calls) (hf : Framed may m v form env) :
    Runs (env + 1) m v Step.Alike (ArenaScheme.evalDefine calls form env)
      (ArenaScheme.evalDefine calls form env) := by
  refine operandsOf_bind hf fun a b hoperands => ?_
  refine object_bind hf.toStands hoperands fun o o' _ halike => ?_
  cases halike with
  | pair htarget hbody =>
    refine object_bind hf.toStands htarget fun o o' _ halike => ?_
    cases halike with
    | symbol =>
      refine get_bind fun out => ?_
      have hexpression := hf.exactly 1 hbody
      simp only
      generalize v.left.exactly 1 _ = o at hexpression ⊢
      generalize v.right.exactly 1 _ = o' at hexpression ⊢
      match hexpression with
      | .some (.cons hexpression .nil) =>
        refine frame_bind hf fun henv hk => ?_
        refine evaluate_bind hcalls hf hexpression henv hk fun w x y hw _ hxy => ?_
        refine operandsOf_bind hw fun _ _ hoperands => ?_
        exact query_bind hw.toStands hw.lt (hw.car hoperands) fun _ _ htarget =>
          frame_bind hw fun henv _ => defined hw henv htarget hxy
      | .none | .some .nil | .some (.cons _ (.cons _ _)) => exact throw hf.toStands hf.lt rfl
    | pair hname hformals =>
      refine query_bind hf.toStands hf.lt (hf.expectSymbol hname) fun _ _ _ => ?_
      refine frame_bind hf fun henv hk => ?_
      have hclosure := makeClosure hf.toStands hf.lt calls.rounds hname hformals hbody henv hk
      refine hclosure.bind hf.toStands fun w r s hw hlater hret => ?_
      have hfw := hf.later hw hlater
      refine pushRoot_bind hw hlater.size hret.1 fun u hu hpushed => ?_
      have hfu := hfw.pushed hu hpushed
      refine operandsOf_bind hfu fun _ _ hoperands => ?_
      refine query_bind hu hfu.lt (hu.car hoperands) fun _ _ hsignature => ?_
      refine query_bind hu hfu.lt (hu.car hsignature) fun _ _ hname => ?_
      refine frame_bind hfu fun henv _ => ?_
      exact root_bind hu (hfu.clear.ne (Nat.le_of_lt (Nat.lt_trans hfw.order hfw.lt))) fun hvalue =>
        defined hfu henv hname hvalue
    | _ => exact throw hf.toStands hf.lt rfl
  | _ => exact throw hf.toStands hf.lt rfl

theorem evalSpecial (hcalls : CallsAlike may m calls) (hf : Framed may m v form env)
    (special : SpecialForm) :
    Runs (env + 1) m v Step.Alike (ArenaScheme.evalSpecial calls special form env)
      (ArenaScheme.evalSpecial calls special form env) := by
  cases special with
  | quote =>
    refine exactOperands_bind 1 hf fun o o' hoperands => ?_
    match hoperands with
    | .some (.cons hdatum .nil) => exact pure hf.toStands hf.lt (.done hdatum)
    | .none | .some .nil | .some (.cons _ (.cons _ _)) => exact throw hf.toStands hf.lt rfl
  | branch => exact evalBranch hcalls hf
  | begin =>
    refine operandsOf_bind hf fun a b hoperands => ?_
    refine pushRoot_bind hf.toStands hf.lt hoperands fun w hw hpushed => ?_
    exact evalSequence hcalls (hf.pushed hw hpushed) hf.lt (by rw [hpushed.size]; omega) _
  | define => exact evalDefine hcalls hf
  | assign => exact evalAssign hcalls hf
  | lambda => exact evalLambda hf
  | defineTransformer => exact throw hf.toStands hf.lt rfl

end Runs

end ArenaScheme
