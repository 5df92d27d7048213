import ArenaScheme.Evaluation.Interpreter
import ArenaScheme.Proofs.HeapRuns
import ArenaScheme.Proofs.SpecialForms

/-! The evaluator runs alike with any amount of fuel. A turn leaves the slots of the form and the
frame to the loop, which puts the next form and the next frame there. -/

namespace ArenaScheme

open Memory Heap

variable {may : Effect → Prop} {args args' : List Ref} {a b : Nat} {v : View}

/-- Where closures are sure to have frames, they have. -/
theorem Corr.closure_frame (hv : Corr v) (hstrict : v.rules.closures = true) {c : Closure}
    (h : v.Rel a b) (hobject : v.left.object a = .closure c) :
    v.left.memory.kind c.env = .environment := by
  have hk : v.left.memory.kind a = .closure ∧ v.left.memory.field a 2 = c.env := by
    unfold Heap.object Heap.kind at hobject
    cases hk : v.left.memory.kind a <;> simp only [hk] at hobject <;> cases hobject
    exact ⟨rfl, rfl⟩
  have hmem : 2 ∈ v.left.memory.referenceFields a := by
    simp [referenceFields, hk.1]
  rcases hv.left.allowed a (hv.mem_left h.1) 2 hmem with ⟨-, hmay⟩ | ⟨-, hfits⟩
  · rw [hk.1] at hmay
    cases hmay
  · rw [hk.1, hk.2] at hfits
    exact hfits rfl hstrict

/-- The values in corresponding ranges of slots. -/
theorem Corr.rel_rootsBetween (hv : Corr v) {start : Nat} (hclear : v.Clear start) (stop : Nat) :
    List.Forall₂ v.Rel (v.left.roots.extract start stop).toList
      (v.right.roots.extract start stop).toList := by
  rw [List.forall₂_iff_get]
  refine ⟨by simp [hv.iso.size], fun i hi hi' => ?_⟩
  have hslot : ∀ h : Heap, ∀ hi : i < (h.roots.extract start stop).toList.length,
      (h.roots.extract start stop).toList.get ⟨i, hi⟩ = h.root (start + i) := by
    intro h hi
    rw [Array.length_toList, Array.size_extract] at hi
    have hlt : start + i < h.roots.size := by omega
    simp only [List.get_eq_getElem, Array.getElem_toList, Array.getElem_extract, Heap.root,
      Array.getElem?_eq_getElem hlt, Option.getD_some]
  rw [hslot, hslot]
  exact hv.rel_root (hclear.ne (Nat.le_add_right _ _))

/-- Corresponding heads name the same special form. -/
theorem Stands.specialForm_eq {m : Machine} (hm : Stands may m v) (h : v.Rel a b) :
    m.keywords.specialForm? a = m.keywords.specialForm? b := by
  have hforms : ∀ p ∈ m.keywords.forms, v.Rel p.1 p.1 := fun p hp =>
    hm.rel_keyword (List.mem_append_left _ (List.mem_map_of_mem hp))
  unfold Keywords.specialForm?
  generalize m.keywords.forms = forms at hforms ⊢
  induction forms with
  | nil => rfl
  | cons p forms ih =>
    obtain ⟨symbol, special⟩ := p
    have heq : (a == symbol) = (b == symbol) := by
      rw [Bool.eq_iff_iff, beq_iff_eq, beq_iff_eq]
      exact hm.eq_iff h (hforms (symbol, special) List.mem_cons_self)
    rw [List.lookup_cons, List.lookup_cons, heq, ih fun p hp => hforms p (List.mem_cons_of_mem _ hp)]

namespace Runs

variable {n : Nat} {m : Machine} {v : View} {calls : Calls} {form env : Nat} {γ δ : Type}
  {last : View → γ → δ → Prop}

/-- A top-level form whose expansions run alike is evaluated alike. -/
theorem evalForm_of_expand (hcalls : CallsAlike may m calls) (hm : Stands may m v)
    (hexpand : Runs v.left.roots.size m v (Returned v) (calls.expand a) (calls.expand b)) :
    Runs v.left.roots.size m v (Returned v) (ArenaScheme.evalForm calls a)
      (ArenaScheme.evalForm calls b) := by
  refine hexpand.bind hm fun w x y hw hlater ⟨hxy, hsize⟩ => ?_
  refine trace_bind hw hlater.size (fun hs => by rw [hs.eq x y hxy.1]) fun u hu hupdated => ?_
  refine get_bind fun out => ?_
  have husize : u.left.roots.size = v.left.roots.size := by rw [hupdated.roots, hsize]
  rw [← husize]
  exact (hcalls.evaluate hu (hupdated.rel _ _ hxy) hu.rel_globals hu.globals.2.2).mono hu
    (Nat.le_refl _) fun z _ _ _ _ hreturned => ⟨hreturned.1, hreturned.2.trans husize⟩

/-- A value that leaves the roots as they were. -/
theorem returned {x y : Eval Ref} (hm : Stands may m v) (hn : n ≤ v.left.roots.size)
    (h : Runs v.left.roots.size m v (Returned v) x y) :
    Runs n m v Step.Alike (return .done (← x)) (return .done (← y)) :=
  done hm (h.mono hm hn fun _ _ _ _ _ hreturned => hreturned.1)

section

variable (hcalls : CallsAlike may m calls)
include hcalls

/-- What the host has added runs alike where expansions do. -/
theorem extension (hm : Stands may m v) (hexpand : ∀ {a b}, v.Rel a b →
      Runs v.left.roots.size m v (Returned v) (calls.expand a) (calls.expand b))
    (hn : n ≤ v.left.roots.size) (hargs : List.Forall₂ v.Rel args args') (action : Extension) :
    Runs n m v Step.Alike (action.run calls args) (action.run calls args') := by
  have hfirst : v.Rel (Extension.run.first args) (Extension.run.first args') := by
    cases hargs with
    | nil => exact hm.rel_null
    | cons h _ => exact h
  have hsecond : v.Rel (Extension.run.second args) (Extension.run.second args') := by
    match hargs with
    | .nil | .cons _ .nil => exact hm.rel_null
    | .cons _ (.cons h _) => exact h
  cases action with
  | identity => exact pure hm hn (.done hfirst)
  | count =>
    unfold Extension.run
    rw [hargs.length_eq]
    exact done hm (made (Agrees.integer hm.toCorr hn _))
  | fail => exact throw hm hn rfl
  | collect =>
    exact onHeap_bind hm (Agrees.collect hm.toCorr hn) fun w _ _ hw hlater _ =>
      pure hw hlater.size (.done hw.rel_null)
  | tailEvaluate =>
    exact get_bind fun _ => pure hm hn (.tail hfirst hm.rel_globals hm.globals.2.2)
  | evaluate =>
    exact get_bind fun _ => returned hm hn
      (hcalls.evaluate hm hfirst hm.rel_globals hm.globals.2.2)
  | evaluateForm =>
    exact returned hm hn (evalForm_of_expand hcalls hm (hexpand hfirst))
  | apply => exact returned hm hn (apply hcalls hm hfirst hsecond)
  | expand => exact returned hm hn (hexpand hfirst)

theorem extensions (hm : Stands may m v) (hexpand : ∀ {a b}, v.Rel a b →
      Runs v.left.roots.size m v (Returned v) (calls.expand a) (calls.expand b))
    (hn : n ≤ v.left.roots.size) (hargs : List.Forall₂ v.Rel args args') (index : Nat) :
    Runs n m v Step.Alike (Extension.procedures calls index args)
      (Extension.procedures calls index args') := by
  refine .get_bind fun out => ?_
  simp only
  cases m.hostProcedures[index]? with
  | some procedure => exact extension hcalls hm hexpand hn hargs _
  | none => exact throw hm hn rfl

theorem invoke {operator args : Nat} (hm : Stands may m v) (hn : n ≤ v.left.roots.size)
    (hclear : v.Clear operator) (horder : operator ≤ args) (hargs : args ≤ v.left.roots.size) :
    Runs n m v Step.Alike (ArenaScheme.invoke calls operator args)
      (ArenaScheme.invoke calls operator args) := by
  refine root_bind hm (hclear.ne (Nat.le_refl _)) fun hprocedure => ?_
  refine object_bind hm hprocedure fun o o' hobject halike => ?_
  cases halike with
  | builtin index _ =>
    refine rootCount_bind hm hn ?_
    have hbetween := hm.rel_rootsBetween (hclear.mono horder) v.left.roots.size
    exact of_step (.refl hm.toCorr hn) rfl rfl (hcalls.builtin index hm hn hbetween)
  | @closure c c' hc =>
    have hframe := hm.closure_frame hm.closures hprocedure hobject
    simp only [← hc.arity, ← hc.rest]
    refine onHeap_bind hm (Agrees.extend hm.toCorr hm.ordered hn (hm.may _ (.inl trivial)) hc.env hframe
      hc.formals c.arity c.rest hargs (hclear.mono horder)) fun w r s hw hlater hmade => ?_
    refine root_bind hw ((hclear.later hlater).ne (Nat.le_refl _)) fun hprocedure => ?_
    exact query_bind hw hlater.size (hw.closureView hprocedure) fun c c' hc =>
      pure hw hlater.size (.tail hc.body hmade.rel hmade.kind_eq)
  | _ =>
    refine get_bind fun out => ?_
    simp only [Heap.display, hm.text .display hprocedure]
    exact throw hm hn rfl

/-- The list in slot `cursor` gets shorter and the values of its forms are pushed. -/
theorem evalOperands {cursor : Nat} (hf : Framed may m v form env) (hcursor : env < cursor)
    (hlt : cursor < v.left.roots.size) (rounds : Nat) :
    Runs (env + 1) m v (fun w _ _ => v.left.roots.size ≤ w.left.roots.size)
      (ArenaScheme.evalOperands calls env cursor rounds)
      (ArenaScheme.evalOperands calls env cursor rounds) := by
  induction rounds generalizing v with
  | zero => exact throw hf.toStands hf.lt rfl
  | succ rounds ih =>
    have hfree : ∀ {w}, Framed may m w form env → w.guard ≠ some cursor := fun hw =>
      hw.clear.ne (Nat.le_of_lt (Nat.lt_trans hf.order hcursor))
    refine root_bind hf.toStands (hfree hf) fun hlist => ?_
    refine object_bind hf.toStands hlist fun o o' _ halike => ?_
    cases halike with
    | null => exact pure hf.toStands hf.lt (Nat.le_refl _)
    | pair hform hrest =>
      refine frame_bind hf fun henv hk => ?_
      refine evaluate_bind hcalls hf hform henv hk fun w _ _ hw hsize hvalue => ?_
      refine pushRoot_bind hw.toStands hw.lt hvalue fun u hu hpushed => ?_
      have hfu := hw.pushed hu hpushed
      refine root_bind hu (hfree hfu) fun hlist => ?_
      refine query_bind hu hfu.lt (hu.cdr hlist) fun _ _ hcdr => ?_
      refine setRoot_bind hu hfu.lt hcursor (hfree hfu) hcdr fun t ht hset => ?_
      have hgrown : t.left.roots.size = v.left.roots.size + 1 := by
        rw [hset.size, hpushed.size, hsize]
      exact (ih (hfu.rootSet ht hset hcursor) (by omega)).mono ht (Nat.le_refl _)
        fun _ _ _ _ _ hle => by omega
    | _ => exact throw hf.toStands hf.lt rfl

theorem evalApplication (hf : Framed may m v form env) :
    Runs (env + 1) m v Step.Alike (ArenaScheme.evalApplication calls form env)
      (ArenaScheme.evalApplication calls form env) := by
  refine root_bind hf.toStands (hf.clear.ne (Nat.le_refl _)) fun hform => ?_
  refine query_bind hf.toStands hf.lt (hf.car hform) fun _ _ hhead => ?_
  refine frame_bind hf fun henv hk => ?_
  refine evaluate_bind hcalls hf hhead henv hk fun w _ _ hw _ hoperator => ?_
  refine pushRoot_bind hw.toStands hw.lt hoperator fun v₁ hm₁ hp₁ => ?_
  have hf₁ := hw.pushed hm₁ hp₁
  refine operandsOf_bind hf₁ fun _ _ hoperands => ?_
  refine pushRoot_bind hm₁ hf₁.lt hoperands fun v₂ hm₂ hp₂ => ?_
  have hf₂ := hf₁.pushed hm₂ hp₂
  refine rootCount_bind hm₂ hf₂.lt ?_
  refine (evalOperands hcalls hf₂ hf₁.lt (by rw [hp₂.size]; omega) _).bind hm₂
    fun v₃ _ _ hm₃ hlater hle => ?_
  have hclear : v₃.Clear w.left.roots.size :=
    (hf₂.later hm₃ hlater).clear.mono (Nat.le_of_lt (Nat.lt_trans hw.order hw.lt))
  refine invoke hcalls hm₃ hlater.size hclear ?_ hle
  rw [hp₂.size, hp₁.size]
  omega

theorem evalTurn (hf : Framed may m v form env) :
    Runs (env + 1) m v Step.Alike (ArenaScheme.evalTurn calls form env)
      (ArenaScheme.evalTurn calls form env) := by
  refine root_bind hf.toStands (hf.clear.ne (Nat.le_refl _)) fun hform => ?_
  refine object_bind hf.toStands hform fun o o' _ halike => ?_
  cases halike with
  | null | vector => exact throw hf.toStands hf.lt rfl
  | symbol =>
    refine frame_bind hf fun henv _ => ?_
    exact query_bind hf.toStands hf.lt (hf.lookup hf.ordered.aligned henv hform) fun _ _ hvalue =>
      pure hf.toStands hf.lt (.done hvalue)
  | @pair head head' _ _ hhead _ =>
    refine get_bind fun out => ?_
    simp only [hf.specialForm_eq hhead]
    cases m.keywords.specialForm? head' with
    | some special => exact evalSpecial hcalls hf special
    | none => exact evalApplication hcalls hf
  | _ => exact pure hf.toStands hf.lt (.done hform)

theorem evalLoop (hf : Framed may m v form env) (rounds : Nat) :
    Runs form m v View.Rel (ArenaScheme.evalLoop calls form env rounds)
      (ArenaScheme.evalLoop calls form env rounds) := by
  have horder := hf.order
  induction rounds generalizing v with
  | zero => exact throw hf.toStands (by have := hf.lt; omega) rfl
  | succ rounds ih =>
    have hlt := hf.lt
    refine releaseRoots_bind hf.toStands (by omega) (by omega) (hf.clear.mono (by omega))
      fun w hw hreleased => ?_
    have hfw : Framed may m w form env := ⟨hw, hreleased.clear hf.clear, horder,
      by rw [hreleased.size]; omega, (hreleased.slot env (by omega)).trans hf.frame⟩
    refine (evalTurn hcalls hfw).bind_of_le hw (by omega) fun u step step' hu hlater halike => ?_
    have hfu := hfw.later hu hlater
    have hltu := hfu.lt
    cases halike with
    | done hvalue => exact pure hu (by omega) hvalue
    | tail hform henv hk =>
      refine setRoot_bind hu (by omega) (Nat.le_refl _) (hfu.clear.ne (Nat.le_refl _)) hform
        fun v₁ hm₁ hset₁ => ?_
      have hclear₁ := hset₁.clear hfu.clear
      refine setRoot_bind hm₁ (by rw [hset₁.size]; omega) (by omega)
        (hclear₁.ne (by omega)) (hset₁.rel _ _ henv) fun v₂ hm₂ hset₂ => ?_
      refine ih ⟨hm₂, hset₂.clear hclear₁, horder, by rw [hset₂.size, hset₁.size]; exact hltu, ?_⟩
      rw [hset₂.self (by rw [hset₁.size]; exact hltu), hset₁.kind]
      exact hk

theorem evaluate {c d : Nat} (hm : Stands may m v) (hab : v.Rel a b) (hcd : v.Rel c d)
    (hk : v.left.memory.kind c = .environment) :
    Runs v.left.roots.size m v (Returned v) (ArenaScheme.evaluate calls a c)
      (ArenaScheme.evaluate calls b d) := by
  refine keepingRoots hm ?_
  refine pushRoot_bind hm (Nat.le_refl _) hab fun v₁ hm₁ hp₁ => ?_
  refine pushRoot_bind hm₁ (by rw [hp₁.size]; omega) (hp₁.rel _ _ hcd) fun v₂ hm₂ hp₂ => ?_
  refine evalLoop hcalls ⟨hm₂, hp₂.clear (hp₁.clear hm.clear), ?_, ?_, ?_⟩ _
  · rw [hp₁.size]
    exact Nat.lt_succ_self _
  · rw [hp₂.size]
    exact Nat.lt_succ_self _
  · rw [hp₂.self, hp₁.kind]
    exact hk

end

end Runs

/-- The procedures run alike for an interpreter whose parts do, in the views of the given kind. -/
structure Procedures.Alike (may : Effect → Prop) (on : View → Prop) (table : Procedures) : Prop where
  run : ∀ {calls : Calls}, (∀ m, CallsAlike may m calls) → ∀ {m : Machine} {v : View} {n : Nat}
    {args args' : List Ref} (index : Nat), Stands may m v → on v → n ≤ v.left.roots.size →
    List.Forall₂ v.Rel args args' →
    Runs n m v Step.Alike (table calls index args) (table calls index args')

theorem Extension.alike (hmay : may .update) : Extension.procedures.Alike may View.Loose :=
  ⟨fun hcalls m _ _ _ _ index hm hloose hn hargs => .extensions (hcalls m) hm
    (fun hab => (hcalls m).expand hmay hm hloose hab) hn hargs index⟩

/-- A procedure of the table runs alike, one that overwrites data where this may happen, if the host's
procedures do where it can have some. -/
theorem Runs.runBuiltin {host : Procedures} {calls : Calls} {m : Machine} {v : View} {n index : Nat}
    (hcalls : ∀ m, CallsAlike may m calls) (hhost : host.Alike may View.Loose) (hm : Stands may m v)
    (hmay : ∀ p, Primitive.table[index]? = some p → p.overwrites → may .update)
    (hn : n ≤ v.left.roots.size) (hargs : List.Forall₂ v.Rel args args') :
    Runs n m v Step.Alike (ArenaScheme.runBuiltin host calls index args)
      (ArenaScheme.runBuiltin host calls index args') := by
  unfold ArenaScheme.runBuiltin
  cases hprimitive : Primitive.table[index]? with
  | some primitive =>
    have hmem : primitive ∈ Primitive.all :=
      List.mem_toArray.mp (Array.mem_of_getElem? hprimitive)
    simp only
    rw [hargs.length_eq]
    exact .ite (fun _ => .throw hm hn rfl) fun _ => Primitive.runsAlike_of_mem (hcalls m) primitive hmem
      (hmay primitive hprimitive) n v args args' hm hn hargs
  | none =>
    refine .get_bind fun out => ?_
    by_cases hloose : v.rules.table = none
    · simp only [hm.closed hloose, Array.getElem?_empty]
      exact .throw hm hn rfl
    · simp only
      cases m.hostProcedures[index - Primitive.table.size]? with
      | some procedure =>
        simp only
        rw [hargs.length_eq]
        exact .ite (fun _ => .throw hm hn rfl) fun _ => hhost.run hcalls _ hm hloose hn hargs
      | none => exact .throw hm hn rfl

theorem Procedures.Alike.runBuiltin {host : Procedures} (hmay : may .update)
    (hhost : host.Alike may View.Loose) : (runBuiltin host).Alike may fun _ => True :=
  ⟨fun hcalls _ _ _ _ _ _ hm _ hn hargs =>
    .runBuiltin hcalls hhost hm (fun _ _ _ => hmay) hn hargs⟩

end ArenaScheme
