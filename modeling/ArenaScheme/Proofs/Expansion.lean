import ArenaScheme.Proofs.Evaluation
import ArenaScheme.Proofs.Ownership
import ArenaScheme.Proofs.Scanning

/-! Expansion runs alike. A transformer may change every pair it can reach while the body of a
definition is expanded; the pairs with the name of the definition are out of its reach, as the form
was just read and nothing else leads to them. So the name is still a symbol when it is bound. -/

namespace ArenaScheme

open Memory Heap

variable {may : Effect → Prop} {h : Heap} {a b body body' form k s : Nat} {v w : View}

/-- The form is the definition of a transformer. -/
def Machine.Defines (m : Machine) (h : Heap) (form : Ref) : Prop :=
  ∃ rest, h.object form = .pair m.keywords.defineTransformer rest

/-- The new root is guarded if it starts a definition. -/
theorem Solitary.guarded {r : Nat} (hs : Solitary h r) (hpair : h.memory.kind r = .pair)
    (hcell : h.memory.kind (h.memory.field r 1) = .pair)
    (hname : h.Bindable (h.memory.field (h.memory.field r 1) 0)) :
    Guarded { h with roots := h.roots.push r } h.roots.size := by
  have hself : { h with roots := h.roots.push r }.root h.roots.size = r := by
    simp [Heap.root]
  refine ⟨by simp, ?_, fun i hi hne => ?_⟩
  · rw [hself]
    exact ⟨hpair, hcell, ⟨hname.kind, hname.free⟩, hs.unshared, hs.only hcell⟩
  · have hlt : i < h.roots.size := by
      simp only [Array.size_push] at hi
      omega
    have hold : { h with roots := h.roots.push r }.root i ∈ h.roots := by
      have : { h with roots := h.roots.push r }.root i = h.root i := by
        simp only [Heap.root, Array.getElem?_push, if_neg hne]
      rw [this]
      exact root_mem hlt
    rw [hself]
    exact ⟨fun heq => hs.root (heq ▸ hold), fun heq => hs.cell hcell (heq ▸ hold)⟩

/-- The form in a slot can be guarded if it starts like a definition of a name. -/
def Guardable (h : Heap) (s : Nat) : Prop :=
  h.memory.kind (h.root s) = .pair → h.memory.kind (h.memory.field (h.root s) 1) = .pair →
    h.Bindable (h.memory.field (h.memory.field (h.root s) 1) 0) → Guarded h s

/-- A pair that nothing leads to can be guarded once it stands in a slot. -/
theorem RootPushed.guardable (hp : RootPushed v a w) (halone : Solitary v.left a) :
    Guardable w.left v.left.roots.size := by
  have heq : w.left = { v.left with roots := v.left.roots.push a } := hp.roots ▸ hp.left
  have hself : { v.left with roots := v.left.roots.push a }.root v.left.roots.size = a := by
    simp [Heap.root]
  rw [heq]
  unfold Guardable
  rw [hself]
  exact fun hpair hcell hname => halone.guarded hpair hcell ⟨hname.kind, hname.free⟩

/-- One root more leaves the guarded pairs as they are. -/
theorem Guarded.secluded_pushed (hg : Guarded v.left s) (hp : RootPushed v a w) :
    Secluded w.left (w.left.root s) := by
  have hroot : w.left.root s = v.left.root s := by
    rw [Heap.root, hp.roots, Array.getElem?_push, if_neg (Nat.ne_of_lt hg.lt)]
    rfl
  rw [hroot, hp.left]
  exact hg.secluded.withRoots _

/-- What the second pair leads to is neither of the two. -/
theorem Secluded.field_ne {rules : Rules} {p : Nat} (hg : Secluded h p) (hs : h.Sound rules)
    (hp : p ∈ h.records) (hk : k < 2) :
    h.memory.field (h.memory.field p 1) k ≠ p ∧
      h.memory.field (h.memory.field p 1) k ≠ h.memory.field p 1 := by
  have hcell := hg.cell_mem hs hp
  have hmem : ∀ {q}, h.memory.kind q = .pair → k ∈ h.memory.referenceFields q := fun hq => by
    rw [pair_references hq, List.mem_cons, List.mem_singleton]
    omega
  refine ⟨hg.unshared _ hcell k (hmem hg.cell), fun heq => ?_⟩
  have hback := hg.only _ hcell k (hmem hg.cell) heq
  exact hg.unshared p hp 1 (by rw [pair_references hg.pair]; decide) hback

/-- Under guard the parts of the second pair are visible. -/
theorem Corr.rel_part (hv : Corr v) (hg : Guarded v.left s) (hk : k < 2) (h : v.Rel a b)
    (ha : a = v.left.memory.field (v.left.memory.field (v.left.root s) 1) k) :
    (v.withGuard (some s)).Rel a b := by
  refine ⟨h.1, fun t ht => ?_⟩
  cases ht
  rw [ha]
  exact hg.secluded.field_ne hv.left (hg.root_mem hv.left.wf) hk

namespace Runs

variable {n : Nat} {m : Machine} {v : View} {calls : Calls} {a b : Nat} {γ δ : Type}
  {last : View → γ → δ → Prop}

theorem expandCall (hcalls : CallsAlike may m calls) (hm : Stands may m v) (hcall : v.Rel a b) :
    Runs v.left.roots.size m v (Returned v) (ArenaScheme.expandCall calls a)
      (ArenaScheme.expandCall calls b) := by
  have hn := Nat.le_refl v.left.roots.size
  refine query_bind hm hn (hm.car hcall) fun _ _ hname => get_bind fun out => ?_
  refine query_bind hm hn (hm.lookup hm.ordered.aligned hm.rel_transformers hname)
    fun _ _ htransformer => ?_
  refine query_bind hm hn (hm.cdr hcall) fun _ _ hoperands => ?_
  refine trace_bind hm hn (fun hs => by rw [hs.eq _ _ hname.1]) fun w hw hupdated => ?_
  have hsize : w.left.roots.size = v.left.roots.size := congrArg Array.size hupdated.roots
  rw [← hsize]
  exact (apply hcalls hw (hupdated.rel _ _ htransformer) (hupdated.rel _ _ hoperands)).mono hw
    (Nat.le_refl _) fun _ _ _ _ _ hreturned => ⟨hreturned.1, hreturned.2.trans hsize⟩

/-- Each round replaces one call in the form in its slot. -/
theorem expandIn (hcalls : CallsAlike may m calls) (hmay : may .update) (hm : Stands may m v)
    (hn : n ≤ form) (hlt : form < v.left.roots.size) (hclear : v.Clear form) (rounds : Nat) :
    Runs n m v (fun w _ _ => w.left.roots.size = v.left.roots.size)
      (ArenaScheme.expandIn calls form rounds) (ArenaScheme.expandIn calls form rounds) := by
  induction rounds generalizing v with
  | zero => exact throw hm (by omega) rfl
  | succ rounds ih =>
    have hrest : ∀ u, Stands may m u → v.left.roots.size ≤ u.left.roots.size → u.Clear form →
        Runs n m u (fun w _ _ => w.left.roots.size = v.left.roots.size)
          (Eval.onHeap (HeapM.releaseRoots v.left.roots.size) >>= fun _ =>
            ArenaScheme.expandIn calls form rounds)
          (Eval.onHeap (HeapM.releaseRoots v.left.roots.size) >>= fun _ =>
            ArenaScheme.expandIn calls form rounds) := by
      intro u hu hle hclear
      refine releaseRoots_bind hu (by omega) (by omega) (hclear.mono (by omega)) fun w hw hr => ?_
      have hsize : w.left.roots.size = v.left.roots.size := by
        rw [hr.size]
        omega
      exact (ih hw (by omega) (hr.clear hclear)).mono hw (Nat.le_refl _)
        fun _ _ _ _ _ heq => heq.trans hsize
    refine get_bind fun out => ?_
    have hfound := hm.findCall out out (hm.rel_root (hclear.ne (Nat.le_refl _)))
    simp only
    generalize (m.on v.left out).findCall _ = o at hfound ⊢
    generalize (m.on v.right out).findCall _ = o' at hfound ⊢
    cases hfound with
    | none => exact pure hm (by omega) rfl
    | @some found found' hfound =>
      obtain ⟨parent, call⟩ := found
      obtain ⟨parent', call'⟩ := found'
      obtain ⟨hparent, hcall⟩ := hfound
      refine rootCount_bind hm (by omega) ?_
      simp only at hparent hcall
      cases hparent with
      | some hpair =>
        refine pushRoot_bind hm (by omega) hpair fun w hw hp => ?_
        have hclear' := hp.clear hclear
        refine (expandCall hcalls hw (hp.rel _ _ hcall)).bind_of_le hw (by rw [hp.size]; omega)
          fun u x y hu hlater hreturned => ?_
        have hsize : u.left.roots.size = v.left.roots.size + 1 := hreturned.2.trans hp.size
        refine root_bind hu ((hclear'.later hlater).ne (by omega)) fun hslot => ?_
        refine onHeap_bind hu (Agrees.setCar hu.toCorr (by omega) (hu.may _ (.inr hmay)) hslot hreturned.1)
          fun t _ _ ht hlater' hupdated => ?_
        exact hrest t ht (by rw [hupdated.roots]; omega) ((hclear'.later hlater).later hlater')
      | none =>
        refine (expandCall hcalls hm hcall).bind_of_le hm (by omega)
          fun u x y hu hlater hreturned => ?_
        have hclear' := hclear.later hlater
        refine setRoot_bind hu (by have := hreturned.2; omega) hn (hclear'.ne (Nat.le_refl _))
          hreturned.1 fun t ht hset => ?_
        exact hrest t ht (Nat.le_of_eq (hset.size.trans hreturned.2).symm) (hset.clear hclear')

/-- Each round expands one form of the list in the slot and goes on to the next. -/
theorem expandBody {cursor : Nat} (hcalls : CallsAlike may m calls) (hmay : may .update)
    (hm : Stands may m v) (hn : n ≤ cursor) (hlt : cursor < v.left.roots.size) (hclear : v.Clear cursor) (rounds : Nat) :
    Runs n m v (fun w _ _ => w.left.roots.size = v.left.roots.size)
      (ArenaScheme.expandBody calls cursor rounds) (ArenaScheme.expandBody calls cursor rounds) := by
  induction rounds generalizing v with
  | zero => exact throw hm (by omega) rfl
  | succ rounds ih =>
    have hfree := hclear.ne (Nat.le_refl _)
    refine root_bind hm hfree fun hlist => object_bind hm hlist fun o o' _ halike => ?_
    cases halike with
    | pair hform _ =>
      refine pushRoot_bind hm (by omega) hform fun w hw hp => ?_
      have hclear' := hp.clear hclear
      have hsize := hp.size
      refine (expandIn hcalls hmay hw (by omega) (by omega) (hclear'.mono (by omega)) _).bind hw
        fun u _ _ hu hlater husize => ?_
      have huclear := hclear'.later hlater
      refine root_bind hu (huclear.ne (Nat.le_refl _)) fun hlist' => ?_
      refine root_bind hu (huclear.ne (by omega)) fun hexpanded => ?_
      refine onHeap_bind hu (Agrees.setCar hu.toCorr (by omega) (hu.may _ (.inr hmay)) hlist' hexpanded)
        fun t _ _ ht hlater' hupdated => ?_
      have htsize : t.left.roots.size = u.left.roots.size := congrArg Array.size hupdated.roots
      have htclear := huclear.later hlater'
      refine releaseRoots_bind ht (by omega) (by omega) (htclear.mono (by omega)) fun z hz hr => ?_
      have hzsize := hr.size
      have hzclear := hr.clear htclear
      refine root_bind hz (hzclear.ne (Nat.le_refl _)) fun hrest => ?_
      refine query_bind hz (by omega) (hz.cdr hrest) fun _ _ hcdr => ?_
      refine setRoot_bind hz (by omega) hn (hzclear.ne (Nat.le_refl _)) hcdr fun y hy hset => ?_
      have hysize := hset.size
      exact (ih hy (by omega) (hset.clear hzclear)).mono hy (Nat.le_refl _)
        fun _ _ _ _ _ heq => heq.trans (by omega)
    | _ => exact pure hm (by omega) rfl

/-- The operands of the form in a guarded slot. -/
theorem operands_bind {f : Nat → Eval γ} {g : Nat → Eval δ} (hm : Stands may m v)
    (hfree : v.guard = none) (hn : n ≤ v.left.roots.size) (hg : Secluded v.left (v.left.root form))
    (h : ∀ a b, v.Rel a b → a = v.left.memory.field (v.left.root form) 1 →
      v.left.memory.kind a = .pair → Runs n m v last (f a) (g b)) :
    Runs n m v last
      (Eval.onHeap (HeapM.root form) >>= fun whole =>
        Eval.onHeap (HeapM.query (·.cdr whole)) >>= f)
      (Eval.onHeap (HeapM.root form) >>= fun whole =>
        Eval.onHeap (HeapM.query (·.cdr whole)) >>= g) := by
  refine root_bind hm (by rw [hfree]; rintro ⟨⟩) fun hwhole => ?_
  refine query_bind hm hn (hm.cdr_field hwhole) fun a b ⟨hab, _, ha⟩ => h a b hab ha ?_
  rw [ha]
  exact hg.cell

/-- The name of a definition is bound. Where it has to be a symbol, the definition is guarded. -/
theorem bindTransformer (hm : Stands may m v) (hfree : v.guard = none) (hn : n ≤ v.left.roots.size)
    (hg : v.rules.table = none → Guarded v.left form) (hab : v.Rel a b) :
    Runs n m v (fun _ _ _ => True) (ArenaScheme.bindTransformer form a)
      (ArenaScheme.bindTransformer form b) := by
  refine pushRoot_bind hm hn hab fun w hw hp => ?_
  have hwfree : ∀ i, w.guard ≠ some i := fun i hi => by
    rw [hp.guard, hfree] at hi
    cases hi
  have hwn : n ≤ w.left.roots.size := by
    rw [hp.size]
    omega
  refine root_bind hw (hwfree _) fun hwhole => ?_
  refine query_bind hw hwn (hw.cdr_field hwhole) fun operands operands' ⟨hop, _, hopEq⟩ => ?_
  refine query_bind hw hwn (hw.car_field hop) fun name name' ⟨hname, _, hnameEq⟩ => ?_
  refine get_bind fun out => ?_
  refine root_bind hw (hwfree _) fun hclosure => ?_
  have hbindable : w.rules.table ≠ some m.transformers → w.left.Bindable name := fun hne => by
    have htable : v.rules.table = none := hp.rules ▸ hw.table_eq_none hne
    rw [hnameEq, hopEq]
    exact ((hg htable).secluded_pushed hp).name
  exact (onHeap (Agrees.putBinding hw.toCorr hw.ordered hwn (hw.may _ (.inl trivial)) hw.rel_transformers
    hw.transformers.2.2 hname hbindable hclosure)).mono hw (Nat.le_refl _) fun _ _ _ _ _ _ => trivial

/-- The closure is made while the name is under guard. -/
theorem transformerClosureGuarded (hm : Stands may m v) (htable : v.rules.table = none)
    (hfree : v.guard = none) (hn : n ≤ v.left.roots.size) (hg : Guarded v.left form) :
    Runs n m v (fun w a b => w.Rel a b ∧ Guarded w.left form)
      (ArenaScheme.transformerClosure calls form) (ArenaScheme.transformerClosure calls form) := by
  have hgv : Stands may m (v.withGuard (some form)) := hm.withGuard htable fun s hs => by
    cases hs
    exact hg
  refine operands_bind hm hfree hn hg.secluded fun operands operands' hop heq _ => ?_
  refine query_bind hm hn (hm.car_field hop) fun name name' ⟨hname, _, hnameEq⟩ => ?_
  refine query_bind hm hn (hm.cdr_field hop) fun rest rest' ⟨hrest, _, hrestEq⟩ => ?_
  have hname := hm.rel_part hg (k := 0) (by decide) hname (by rw [hnameEq, heq])
  have hrest := hm.rel_part hg (k := 1) (by decide) hrest (by rw [hrestEq, heq])
  refine query_bind hm hn (hgv.car hrest) fun params params' hparams => ?_
  refine query_bind hm hn (hgv.cdr hrest) fun body body' hbody => ?_
  refine get_bind fun out => ?_
  refine (underGuard hfree (makeClosure hgv hn _ hname hparams hbody hgv.rel_globals
    hgv.globals.2.2)).mono hm (Nat.le_refl _) fun w a b _ _ ⟨hwfree, hwg, hreturned⟩ => ?_
  exact ⟨View.rel_withGuard hwfree hreturned.1, hwg⟩

theorem transformerClosure (hm : Stands may m v) (hfree : v.guard = none) (hn : n ≤ v.left.roots.size)
    (hg : v.rules.table = none → Guarded v.left form) :
    Runs n m v (fun w a b => w.Rel a b ∧ (w.rules.table = none → Guarded w.left form))
      (ArenaScheme.transformerClosure calls form) (ArenaScheme.transformerClosure calls form) := by
  by_cases htable : v.rules.table = none
  · exact (transformerClosureGuarded hm htable hfree hn (hg htable)).mono hm (Nat.le_refl _)
      fun _ _ _ _ _ hpost => ⟨hpost.1, fun _ => hpost.2⟩
  · refine root_bind hm (by rw [hfree]; rintro ⟨⟩) fun hwhole => ?_
    refine query_bind hm hn (hm.cdr hwhole) fun _ _ hoperands => ?_
    refine query_bind hm hn (hm.car hoperands) fun _ _ hname => ?_
    refine query_bind hm hn (hm.cdr hoperands) fun _ _ hrest => ?_
    refine query_bind hm hn (hm.car hrest) fun _ _ hparams => ?_
    refine query_bind hm hn (hm.cdr hrest) fun _ _ hbody => get_bind fun out => ?_
    refine (makeClosure hm hn _ hname hparams hbody hm.rel_globals hm.globals.2.2).mono hm
      (Nat.le_refl _) fun w _ _ _ hlater hreturned => ⟨hreturned.1, fun hnone => ?_⟩
    exact absurd (hlater.rules ▸ hnone) htable

section

variable (hcalls : CallsAlike may m calls) (hmay : may .update) (hm : Stands may m v)
include hcalls hmay hm

/-- The body is expanded while the name is under guard. -/
theorem expandBodyGuarded (htable : v.rules.table = none) (hfree : v.guard = none) (hn : n ≤ form)
    (hg : Guarded v.left form) (hk : v.left.memory.kind
      (v.left.memory.field (v.left.memory.field (v.left.root form) 1) 1) = .pair)
    (hbody : v.Rel body body') (heq : body = v.left.memory.field
      (v.left.memory.field (v.left.memory.field (v.left.root form) 1) 1) 1) :
    Runs n m v (fun w _ _ => Guarded w.left form)
      (do ArenaScheme.expandBody calls (← HeapM.pushRoot body) calls.rounds)
      (do ArenaScheme.expandBody calls (← HeapM.pushRoot body') calls.rounds) := by
  have hlt := hg.lt
  have hgv : Stands may m (v.withGuard (some form)) := hm.withGuard htable fun s hs => by
    cases hs
    exact hg
  have hrel : (v.withGuard (some form)).Rel body body' := by
    have hroot := hg.root_mem hm.left.wf
    have hcell := hg.secluded.cell_mem hm.left hroot
    have hrest := hm.left.pair_field_mem hcell hg.secluded.cell (k := 1) (by decide)
    refine ⟨hbody.1, heq ▸ hgv.visible_field hrest (fun t ht => ?_) ?_⟩
    · cases ht
      exact hg.secluded.field_ne hm.left hroot (by decide)
    · change 1 ∈ v.left.memory.referenceFields _
      rw [pair_references hk]
      decide
  have hclear : (v.withGuard (some form)).Clear v.left.roots.size := fun s hs => by
    cases hs
    exact hlt
  have hrun : Runs n m (v.withGuard (some form)) (fun _ _ _ => True)
      (do ArenaScheme.expandBody calls (← HeapM.pushRoot body) calls.rounds)
      (do ArenaScheme.expandBody calls (← HeapM.pushRoot body') calls.rounds) := by
    refine pushRoot_bind hgv (Nat.le_trans hn (Nat.le_of_lt hlt)) hrel fun w hw hp => ?_
    refine (expandBody hcalls hmay hw (Nat.le_trans hn (Nat.le_of_lt hlt)) ?_ (hp.clear hclear) _).mono hw
      (Nat.le_refl _) fun _ _ _ _ _ _ => trivial
    rw [hp.size]
    exact Nat.lt_succ_self _
  exact (underGuard hfree hrun).mono hm (Nat.le_refl _) fun w _ _ _ _ h => h.2.1

/-- Where names need not be symbols, nothing has to be guarded. -/
theorem expandBodyOf (hfree : v.guard = none) (hn : n ≤ v.left.roots.size)
    (hbody : v.Rel body body') :
    Runs n m v (fun _ _ _ => True)
      (do ArenaScheme.expandBody calls (← HeapM.pushRoot body) calls.rounds)
      (do ArenaScheme.expandBody calls (← HeapM.pushRoot body') calls.rounds) := by
  refine pushRoot_bind hm hn hbody fun w hw hp => ?_
  refine (expandBody hcalls hmay hw hn (by rw [hp.size]; omega) (fun s hs => ?_) _).mono hw
    (Nat.le_refl _) fun _ _ _ _ _ _ => trivial
  rw [hp.guard, hfree] at hs
  cases hs

theorem registerTransformer (hfree : v.guard = none) (hn : n ≤ form)
    (hlt : form < v.left.roots.size) (hg : v.rules.table = none → Guarded v.left form)
    (hk : v.left.memory.kind
      (v.left.memory.field (v.left.memory.field (v.left.root form) 1) 1) = .pair)
    (hbody : v.Rel body body') (heq : body = v.left.memory.field
      (v.left.memory.field (v.left.memory.field (v.left.root form) 1) 1) 1) :
    Runs n m v (fun _ _ _ => True) (ArenaScheme.registerTransformer calls form body)
      (ArenaScheme.registerTransformer calls form body') := by
  have hassoc : ∀ b, ArenaScheme.registerTransformer calls form b =
      (do ArenaScheme.expandBody calls (← HeapM.pushRoot b) calls.rounds) >>= fun _ =>
        ArenaScheme.transformerClosure calls form >>= ArenaScheme.bindTransformer form :=
    fun b => (bind_assoc ..).symm
  have hexpanded : Runs n m v (fun w _ _ => w.rules.table = none → Guarded w.left form)
      (do ArenaScheme.expandBody calls (← HeapM.pushRoot body) calls.rounds)
      (do ArenaScheme.expandBody calls (← HeapM.pushRoot body') calls.rounds) := by
    by_cases htable : v.rules.table = none
    · exact (expandBodyGuarded hcalls hmay hm htable hfree hn (hg htable) hk hbody heq).mono hm
        (Nat.le_refl _) fun _ _ _ _ _ hwg _ => hwg
    · exact (expandBodyOf hcalls hmay hm hfree (by omega) hbody).mono hm (Nat.le_refl _)
        fun _ _ _ _ hlater _ hnone => absurd (hlater.rules ▸ hnone) htable
  rw [hassoc, hassoc]
  refine hexpanded.bind hm fun w _ _ hw hlater hwg => ?_
  have hwfree := hlater.guard.trans hfree
  refine (transformerClosure hw hwfree hlater.size hwg).bind hw fun u a b hu hlater' ⟨hab, hug⟩ => ?_
  exact bindTransformer hu (hlater'.guard.trans hwfree) hlater'.size hug hab

theorem defineTransformer (hfree : v.guard = none) (hn : n ≤ form) (hlt : form < v.left.roots.size)
    (hguard : v.rules.table = none → Guardable v.left form) :
    Runs n m v (fun _ _ _ => True) (ArenaScheme.defineTransformer calls form)
      (ArenaScheme.defineTransformer calls form) := by
  have hn' : n ≤ v.left.roots.size := by omega
  have hfail : ∀ fault : Fault, fault.isCorrupt = false →
      Runs n m v (fun _ _ _ => True) (Eval.fail fault : Eval Unit) (Eval.fail fault : Eval Unit) :=
    fun _ h => throw hm hn' h
  refine root_bind hm (by rw [hfree]; rintro ⟨⟩) fun hwhole => ?_
  refine query_bind hm hn' (hm.cdr_field hwhole) fun operands operands' ⟨hop, hk, hopEq⟩ => ?_
  refine object_bind hm hop fun o o' ho halike => ?_
  cases halike with
  | @pair name name' rest rest' hname hrest =>
    obtain ⟨hcell, hfirst, hsecond⟩ := kind_of_pair ho
    refine query_bind hm hn' (hm.symbolName hname)
      fun spelled spelled' ⟨hspelled, hsymbol, hbytes⟩ => ?_
    subst hspelled
    refine ite (fun _ => (throw hm hn' rfl).bind hm fun _ _ _ _ _ (hfalse : False) => hfalse.elim)
      fun hreserved => ?_
    have hbindable : v.left.Bindable name :=
      ⟨hsymbol, by rw [← hbytes]; exact Bool.not_eq_true _ ▸ hreserved⟩
    subst hopEq
    have hg : v.rules.table = none → Guarded v.left form := fun htable =>
      hguard htable hk hcell (by rw [hfirst]; exact hbindable)
    refine object_bind hm hrest fun o o' ho halike => ?_
    cases halike with
    | @pair params params' body body' _ hbody =>
      obtain ⟨hpair, -, hbodyEq⟩ := kind_of_pair ho
      have hsame : v.right.isPair body' = v.left.isPair body :=
        congrArg (· == .pair) (hm.kind_eq hbody)
      refine get_bind fun out => ite_iff (by simp only [hsame]) (fun _ => ?_) fun _ => ?_
      · exact (throw hm hn' rfl).bind hm fun _ _ _ _ _ (hfalse : False) => hfalse.elim
      · exact registerTransformer hcalls hmay hm hfree hn hlt hg (by rw [hsecond]; exact hpair) hbody
          (by rw [hsecond, hbodyEq])
    | _ => exact hfail _ rfl
  | _ => exact hfail _ rfl

/-- A form is expanded, or registered if it is a definition. Nothing else leads to a definition
where names have to be symbols. -/
theorem expand (hfree : v.guard = none) (hab : v.Rel a b)
    (halone : v.rules.table = none → m.Defines v.left a → Solitary v.left a) :
    Runs v.left.roots.size m v (Returned v) (ArenaScheme.expand calls a)
      (ArenaScheme.expand calls b) := by
  have hrest : ∀ defines : Bool, (defines = true → m.Defines v.left a) →
      Runs v.left.roots.size m v View.Rel
      (Eval.onHeap (HeapM.pushRoot a) >>= fun slot =>
        if defines = true then do ArenaScheme.defineTransformer calls slot; return Heap.truth
        else do ArenaScheme.expandIn calls slot calls.rounds; HeapM.root slot)
      (Eval.onHeap (HeapM.pushRoot b) >>= fun slot =>
        if defines = true then do ArenaScheme.defineTransformer calls slot; return Heap.truth
        else do ArenaScheme.expandIn calls slot calls.rounds; HeapM.root slot) := by
    intro defines hdefines
    refine pushRoot_bind hm (Nat.le_refl _) hab fun w hw hp => ?_
    have hlt : v.left.roots.size < w.left.roots.size := by
      rw [hp.size]
      exact Nat.lt_succ_self _
    have hwfree := hp.guard.trans hfree
    refine ite (fun hdef => ?_) fun _ => ?_
    · exact (defineTransformer hcalls hmay hw hwfree (Nat.le_refl _) hlt fun htable =>
          hp.guardable (halone (hp.rules ▸ htable) (hdefines hdef))).bind hw
        fun u _ _ hu hlater _ => pure hu hlater.size (hu.rel_boolean true)
    · refine (expandIn hcalls hmay hw (Nat.le_refl _) hlt (fun s hs => ?_) _).bind hw
        fun u _ _ hu hlater _ => root hu hlater.size (by rw [hlater.guard, hwfree]; rintro ⟨⟩)
      rw [hwfree] at hs
      cases hs
  refine keepingRoots hm (get_bind fun out => object_bind hm hab fun o o' ho halike => ?_)
  cases halike with
  | @pair head head' _ _ hhead _ =>
    have hkeyword := hm.rel_keyword (r := m.keywords.defineTransformer) (by simp [Keywords.symbols])
    have hsame : (head' == m.keywords.defineTransformer) = (head == m.keywords.defineTransformer) :=
      Bool.eq_iff_iff.mpr (by simpa using (hm.eq_iff hhead hkeyword).symm)
    simp only [hsame]
    exact hrest _ fun hdef => ⟨_, ho.trans (by rw [beq_iff_eq.mp hdef])⟩
  | _ => exact hrest false fun hdef => absurd hdef Bool.false_ne_true

end

end Runs

/-- More fuel means deeper evaluations, and these run alike if shallower ones do. -/
theorem callsAlike_interpreterWith {table : Procedures} (htable : table.Alike may fun _ => True)
    (fuel : Nat) (m : Machine) : CallsAlike may m (interpreterWith table fuel) := by
  -- the table runs alike with an interpreter that lacks it
  have hequip : ∀ {calls}, (∀ m, CallsAlike may m calls) →
      ∀ m, CallsAlike may m (interpreterWith.equip table calls) := fun hcalls m =>
    ⟨(hcalls m).evaluate, (hcalls m).invoke, (hcalls m).expand,
      fun index hm hn hargs => htable.run hcalls index hm trivial hn hargs⟩
  induction fuel generalizing m with
  | zero =>
    exact hequip (fun m => ⟨fun hm _ _ _ => .throw hm (Nat.le_refl _) rfl,
      fun hm hn _ _ _ => .throw hm hn rfl, fun _ hm _ _ => .throw hm (Nat.le_refl _) rfl,
      fun _ hm hn _ => .throw hm hn rfl⟩) m
  | succ fuel ih =>
    refine hequip (fun m => ⟨.evaluate (ih m), .invoke (ih m), fun hmay hm hloose hab => ?_,
      fun _ hm hn _ => .throw hm hn rfl⟩) m
    obtain ⟨t, ht⟩ := Option.ne_none_iff_exists'.mp hloose
    exact .expand (ih m) hmay hm (hm.loose t ht).2 hab fun htable => absurd htable hloose

/-- The interpreter of a session runs alike. -/
theorem alike_builtins (hmay : may .update) :
    (runBuiltin Extension.procedures).Alike may fun _ => True :=
  Procedures.Alike.runBuiltin hmay (Extension.alike hmay)

theorem callsAlike_interpreter (m : Machine) (fuel : Nat) :
    CallsAlike (fun _ => True) m (interpreter fuel) :=
  callsAlike_interpreterWith (alike_builtins trivial) fuel m

/-- A form is evaluated alike with any amount of fuel, a definition if nothing else leads to it. -/
theorem Runs.evalForm {m : Machine} {table : Procedures} (htable : table.Alike may fun _ => True)
    (hmay : may .update) (fuel : Nat) (hm : Stands may m v) (hfree : v.guard = none)
    (hab : v.Rel a b) (halone : v.rules.table = none → m.Defines v.left a → Solitary v.left a) :
    Runs v.left.roots.size m v (Returned v) (ArenaScheme.evalForm (interpreterWith table fuel) a)
      (ArenaScheme.evalForm (interpreterWith table fuel) b) := by
  refine evalForm_of_expand (callsAlike_interpreterWith htable fuel m) hm ?_
  cases fuel with
  | zero => exact .throw hm (Nat.le_refl _) rfl
  | succ fuel =>
    exact .expand (callsAlike_interpreterWith htable fuel m) hmay hm hfree hab halone

end ArenaScheme
