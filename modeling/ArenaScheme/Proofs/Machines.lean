import ArenaScheme.Proofs.Sessions

/-! Whatever a host does with a machine, it keeps the machine intact: its heap is sound, what it
remembers stands where it stood, all symbols are in their table, and there is a fence around the
names of transformers. A machine runs beside itself, so what holds of two runs holds of one. -/

namespace ArenaScheme

open Memory Heap

variable {may : Effect → Prop} {stop : Stop}

/-- A heap that keeps some rules keeps weaker ones. -/
theorem Heap.Sound.loosen {rules rules' : Rules} {h : Heap} (hs : h.Sound rules)
    (hclosures : rules'.closures = true → rules.closures = true)
    (htable : rules'.table = none → rules.table = none) : h.Sound rules' where
  wf := hs.wf
  allowed r hr k hk := (hs.allowed r hr k hk).imp_right fun ⟨hmem, hfits⟩ => by
    refine ⟨hmem, ?_⟩
    generalize h.memory.kind r = kind at hfits ⊢
    cases kind with
    | closure => exact fun htwo hrule => hfits htwo (hclosures hrule)
    | binding =>
      unfold Kind.Fits at hfits ⊢
      simp only at hfits ⊢
      split
      · rename_i hzero
        rw [if_pos hzero] at hfits
        exact fun hrule => hfits (htable hrule)
      · rename_i hzero
        rw [if_neg hzero] at hfits
        exact hfits
    | _ => exact hfits
  symbols := hs.symbols
  fixture := hs.fixture
  unique := hs.unique
  pinned_before := hs.pinned_before
  pinning := hs.pinning

namespace Machine

/-- Closures have frames, and only the frame of the transformers may bind any record. -/
def rules (m : Machine) : Rules := ⟨true, some m.transformers⟩

/-- The machine beside itself. -/
abbrev view (m : Machine) : View := View.diagonal m.rules (fun _ => True) m.heap

structure Intact (m : Machine) : Prop where
  sound : m.heap.Sound m.rules
  indexed : m.heap.Indexed
  globals : m.heap.Permanent .environment m.globals
  transformers : m.heap.Permanent .environment m.transformers
  named : ∀ p ∈ m.keywords.named, m.heap.Named p.1 p.2
  fenced : ∃ own, m.heap.Fenced m.transformers own

/-- `m'` comes from `m` by steps of the heap that leave the first `n` slots in place, and by
output. -/
structure Becomes (n : Nat) (m m' : Machine) : Prop where
  evolves : Evolves m.rules n (fun _ => True) m.heap m'.heap
  same : m' = m.on m'.heap m'.output

/-- The machine that a computation leaves, whether it succeeds or fails. -/
def after {α : Type} (m : Machine) (x : Eval α) : Machine :=
  match x m with
  | .ok _ m' => m'
  | .error _ m' => m'

section

variable {m m' : Machine} {n : Nat} {α β : Type} {post : View → α → β → Prop} {x : Eval α}
  {y : Eval β}

theorem Intact.standsWith {allowed : Effect → Prop} (hm : m.Intact)
    (hallowed : ∀ effect, effect.Plain ∨ may effect → allowed effect) :
    Stands may m (View.diagonal m.rules allowed m.heap) where
  toCorr := Corr.diagonal hm.sound _
  ordered := ⟨Or.inr View.single_diagonal, fun t ht => by
    obtain rfl : m.transformers = t := Option.some.inj ht
    exact ⟨hm.transformers.1, hm.transformers.2.1⟩⟩
  closures := rfl
  loose _ ht := ⟨(Option.some.inj ht).symm, rfl⟩
  closed ht := nomatch ht
  may := hallowed
  globals := hm.globals
  transformers := hm.transformers
  keywords r hr := by
    rw [Keywords.symbols_eq] at hr
    obtain ⟨p, hp, rfl⟩ := List.mem_map.mp hr
    exact (hm.named p hp).1
  orderly _ := ⟨hm.indexed, hm.named, hm.fenced⟩

theorem Intact.stands (hm : m.Intact) : Stands (fun _ => True) m m.view :=
  hm.standsWith fun _ _ => trivial

theorem Intact.evolve {g : Heap} (hm : m.Intact) (he : Evolves m.rules n may m.heap g) :
    { m with heap := g }.Intact := by
  have hrules : ∀ t, m.rules.table = some t → t = m.transformers := fun t ht =>
    (Option.some.inj ht).symm
  have ho : m.Orderly m.heap := ⟨hm.indexed, hm.named, hm.fenced⟩
  obtain ⟨hindexed, hnamed, hfenced⟩ := ho.evolve he hrules hm.transformers
  exact ⟨he.sound_right, hindexed, he.permanent hm.globals, he.permanent hm.transformers, hnamed, hfenced⟩

theorem Intact.become (hm : m.Intact) (he : Evolves m.rules n may m.heap m'.heap)
    (hsame : m' = m.on m'.heap m'.output) : m'.Intact := by
  have hnext := hm.evolve he
  rw [hsame]
  exact ⟨hnext.sound, hnext.indexed, hnext.globals, hnext.transformers, hnext.named, hnext.fenced⟩

theorem Becomes.intact (hb : Becomes n m m') (hm : m.Intact) : m'.Intact :=
  hm.become hb.evolves hb.same

theorem after_eq_ok {a : α} (hrun : x m = .ok a m') : m.after x = m' := by
  unfold after
  rw [hrun]

theorem after_eq_error (hrun : x m = .error stop m') : m.after x = m' := by
  unfold after
  rw [hrun]

theorem after_bind_of_ok {a : α} {f : α → Eval β} (hrun : x m = .ok a m') :
    m.after (x >>= f) = m'.after (f a) := by
  unfold after
  change (match EStateM.bind x f m with | .ok _ m' => m' | .error _ m' => m') = _
  rw [EStateM.bind, hrun]

theorem after_bind_of_error {f : α → Eval β} (hrun : x m = .error stop m') :
    m.after (x >>= f) = m' := by
  unfold after
  change (match EStateM.bind x f m with | .ok _ m' => m' | .error _ m' => m') = _
  rw [EStateM.bind, hrun]

/-- One of two runs that are the same. -/
theorem evolves_of_runs {rules : Rules} (h : Runs n m (View.diagonal rules may m.heap) post x y) :
    Evolves rules n may m.heap (m.after x).heap ∧
      m.after x = m.on (m.after x).heap (m.after x).output := by
  have hrun : Ends n m (View.diagonal rules may m.heap) post (x m) (y m) := h m.output
  unfold after
  generalize x m = p at hrun ⊢
  generalize y m = q at hrun
  cases hrun with
  | ok w out _ hlater _ => exact ⟨hlater.evolves, rfl⟩
  | error w out _ _ hlater => exact ⟨hlater.evolves, rfl⟩

theorem becomes_of_runs (h : Runs n m m.view post x y) : Becomes n m (m.after x) :=
  ⟨(evolves_of_runs h).1, (evolves_of_runs h).2⟩

theorem post_of_runs {a : α} (h : Runs n m m.view post x y) (hrun : x m = .ok a m') :
    ∃ w b, w.left = m'.heap ∧ Corr w ∧ Later n m.view w ∧ post w a b := by
  have hends : Ends n m m.view post (x m) (y m) := h m.output
  rw [hrun] at hends
  generalize y m = q at hends
  cases hends with
  | ok w out hw hlater hpost => exact ⟨w, _, rfl, hw, hlater, hpost⟩

end

/-! Procedures of a host. -/

/-- The computation leaves all slots in place and gives what fits, or fails for a reason. -/
structure Respects {α : Type} (m : Machine) (fits : Heap → α → Prop) (x : Eval α) : Prop where
  becomes : Becomes m.heap.roots.size m (m.after x)
  value : ∀ a k, x m = .ok a k → fits k.heap a
  stop : ∀ stop k, x m = .error stop k → stop.isCorrupt = false

/-- A value, or a form and a frame to go on with. -/
def StepFits (h : Heap) : Step → Prop
  | .done value => value ∈ h.records
  | .tail form env => form ∈ h.records ∧ env ∈ h.records ∧ h.memory.kind env = .environment

/-- What a procedure of a host can rely on when it uses the interpreter. -/
structure Reliable (calls : Calls) : Prop where
  evaluate : ∀ m : Machine, m.Intact → ∀ form ∈ m.heap.records, ∀ env ∈ m.heap.records,
    m.heap.memory.kind env = .environment →
    Respects m (fun h value => value ∈ h.records) (calls.evaluate form env)
  invoke : ∀ m : Machine, m.Intact → ∀ operator args, operator ≤ args → args ≤ m.heap.roots.size →
    Respects m StepFits (calls.invoke operator args)
  expand : ∀ m : Machine, m.Intact → ∀ form ∈ m.heap.records,
    Respects m (fun h value => value ∈ h.records) (calls.expand form)

/-- What is assumed of a host: its procedures use the heap as it is meant to be used, and they
release and overwrite no slots but those that they have pushed. They may leave roots behind, change
data, bind names, make procedures and use the interpreter. -/
def Considerate (host : Procedures) : Prop :=
  ∀ calls, Reliable calls → ∀ m : Machine, m.Intact → ∀ index args,
    (∀ r ∈ args, r ∈ m.heap.records) → Respects m StepFits (host calls index args)

section

variable {m : Machine} {v : View} {α : Type} {fits : Heap → α → Prop} {x : Eval α}

theorem respects_of_runs {post : View → α → α → Prop} {y : Eval α}
    (h : Runs m.heap.roots.size m m.view post x y)
    (hfits : ∀ w a b, Corr w → post w a b → fits w.left a) : Respects m fits x := by
  refine ⟨becomes_of_runs h, fun a k hrun => ?_, fun stop k hrun => ?_⟩
  · obtain ⟨w, b, hw, hcorr, -, hpost⟩ := post_of_runs h hrun
    exact hw ▸ hfits w a b hcorr hpost
  · have hends : Ends _ m m.view post (x m) (y m) := h m.output
    rw [hrun] at hends
    generalize y m = q at hends
    cases hends with
    | error w out _ _ _ hstop => exact hstop

theorem stepFits_of_alike {a b : Step} (hv : Corr v) (h : Step.Alike v a b) : StepFits v.left a := by
  cases h with
  | done hab => exact hv.mem_left hab.1
  | tail hab hcd hk => exact ⟨hv.mem_left hab.1, hv.mem_left hcd.1, hk⟩

theorem reliable_of_alike {calls : Calls} (hcalls : ∀ m, CallsAlike (fun _ => True) m calls) :
    Reliable calls where
  evaluate m hm _ hform _ henv hk := respects_of_runs
    ((hcalls m).evaluate hm.stands (View.diagonal_rel hform) (View.diagonal_rel henv) hk)
    fun _ _ _ hw hreturned => hw.mem_left hreturned.1.1
  invoke m hm _ _ horder hargs := respects_of_runs
    ((hcalls m).invoke hm.stands (Nat.le_refl _) (fun _ hs => nomatch hs) horder hargs)
    fun _ _ _ => stepFits_of_alike
  expand m hm _ hform := respects_of_runs
    ((hcalls m).expand trivial hm.stands (fun h => nomatch h) (View.diagonal_rel hform))
    fun _ _ _ hw hreturned => hw.mem_left hreturned.1.1

/-- Where a host can have procedures, the machine is intact. -/
theorem intact_of_stands (hm : Stands (fun _ => True) m v) (hloose : v.Loose) (out : String) :
    (m.on v.left out).Intact ∧ v.rules = m.rules ∧ v.guard = none := by
  obtain ⟨t, ht⟩ := Option.ne_none_iff_exists'.mp hloose
  obtain ⟨rfl, hfree⟩ := hm.loose t ht
  have hrules : v.rules = m.rules := by
    unfold rules
    rw [← hm.closures, ← ht]
  obtain ⟨hindexed, hnamed, hfenced⟩ := hm.orderly hloose
  exact ⟨⟨hrules ▸ hm.left, hindexed, hm.globals, hm.transformers, hnamed, hfenced⟩, hrules, hfree⟩

/-- There it runs beside itself, and so does what a considerate host has added. -/
theorem Considerate.alike {host : Procedures} (hhost : Considerate host) :
    host.Alike (fun _ => True) View.Loose := by
  refine ⟨fun {calls} hcalls m v n args args' index hm hloose hn hargs out => ?_⟩
  obtain ⟨hintact, hrules, hfree⟩ := intact_of_stands hm hloose out
  have hsingle := hm.ordered.aligned.resolve_left hloose
  have hmay : v.may = fun _ => True :=
    funext fun effect => propext ⟨fun _ => trivial, fun _ => hm.may effect (.inr trivial)⟩
  obtain rfl : args = args' :=
    List.forall₂_eq_eq_eq ▸ hargs.imp fun a b hab => hsingle.eq a b hab.1
  have hmem : ∀ r ∈ args, r ∈ v.left.records := fun r hr =>
    hm.mem_left (List.forall₂_same.mp hargs r hr).1
  obtain ⟨hbecomes, hgiven, hstop⟩ :=
    hhost calls (reliable_of_alike hcalls) _ hintact index args hmem
  rw [← hsingle.same]
  generalize hrun : host calls index args (m.on v.left out) = result
  have hafter : ∀ {k : Machine}, Machine.after (m.on v.left out) (host calls index args) = k →
      k = m.on k.heap k.output ∧ Corr (View.diagonal v.rules v.may k.heap) ∧
        Later n v (View.diagonal v.rules v.may k.heap) := by
    rintro _ rfl
    have hevolves := hbecomes.evolves.mono hn
    rw [show Machine.rules (m.on v.left out) = v.rules from hrules.symm, ← hmay] at hevolves
    refine ⟨hbecomes.same, .diagonal hevolves.sound_right _, ⟨rfl, hfree.symm, rfl⟩, hevolves, fun ho =>
      ⟨Or.inr View.single_diagonal, fun t ht => ?_⟩⟩
    have hlasts := hevolves.pinned (ho.pinned t ht).1 (ho.pinned t ht).2
    exact ⟨hlasts.mem, hlasts.pinned.trans (ho.pinned t ht).2⟩
  cases result with
  | ok step k =>
    obtain ⟨hk, hcorr, hlater⟩ := hafter (after_eq_ok hrun)
    have hstep := hgiven step k hrun
    rw [hk]
    refine .ok _ _ hcorr hlater ?_
    cases step with
    | done value => exact .done (View.diagonal_rel hstep)
    | tail form env => exact .tail (View.diagonal_rel hstep.1) (View.diagonal_rel hstep.2.1) hstep.2.2
  | error stop k =>
    obtain ⟨hk, hcorr, hlater⟩ := hafter (after_eq_error hrun)
    rw [hk]
    exact .error _ _ stop hcorr hlater (hstop stop k hrun)

end

/-! What a host can do. -/

/-- The computations that a host can start. -/
inductive Call where
  | evalText (text : String)
  | evalForm (form : Ref)
  | expand (form : Ref)
  | evaluate (form env : Ref)
  | apply (procedure args : Ref)
  deriving DecidableEq

namespace Call

def run (calls : Calls) : Call → Eval Ref
  | evalText text => Session.evalTextWith calls text
  | evalForm form => ArenaScheme.evalForm calls form
  | expand form => ArenaScheme.expand calls form
  | evaluate form env => ArenaScheme.evaluate calls form env
  | apply procedure args => ArenaScheme.apply calls procedure args

/-- The references that a computation is given. -/
def refs : Call → List Ref
  | evalText _ => []
  | evalForm form | expand form => [form]
  | evaluate form env => [form, env]
  | apply procedure args => [procedure, args]

/-- The references that have to be frames. -/
def frames : Call → List Ref
  | evaluate _ env => [env]
  | _ => []

/-- The references that are expanded as forms. -/
def forms : Call → List Ref
  | evalForm form | expand form => [form]
  | _ => []

/-- A computation is given values, and evaluates in a frame. -/
structure Valid (m : Machine) (call : Call) : Prop where
  refs : ∀ r ∈ call.refs, r ∈ m.heap.records
  frames : ∀ r ∈ call.frames, m.heap.memory.kind r = .environment

instance (m : Machine) (call : Call) : Decidable (call.Valid m) :=
  decidable_of_iff
    ((∀ r ∈ call.refs, r ∈ m.heap.records) ∧
      ∀ r ∈ call.frames, m.heap.memory.kind r = .environment)
    ⟨fun ⟨hrefs, hframes⟩ => ⟨hrefs, hframes⟩, fun hcall => ⟨hcall.refs, hcall.frames⟩⟩

variable {m : Machine} {call : Call} {table : Procedures}

/-- A definition of a transformer is given by the only way that leads to it. -/
def Apart (m : Machine) (call : Call) : Prop :=
  ∀ form ∈ call.forms, m.Defines m.heap form → Solitary m.heap form

theorem runs {rules : Rules} (htable : table.Alike may fun _ => True) (hmay : may .update)
    (hs : Stands may m (View.diagonal rules (fun _ => True) m.heap)) (hcall : call.Valid m)
    (hapart : rules.table = none → call.Apart m) (fuel : Nat) :
    Runs m.heap.roots.size m (View.diagonal rules (fun _ => True) m.heap)
      (Returned (View.diagonal rules (fun _ => True) m.heap))
      (call.run (interpreterWith table fuel)) (call.run (interpreterWith table fuel)) := by
  have hcalls := callsAlike_interpreterWith htable fuel m
  have hrel : ∀ r ∈ call.refs, (View.diagonal rules (fun _ => True) m.heap).Rel r r := fun r hr =>
    View.diagonal_rel (hcall.refs r hr)
  cases call with
  | evalText text => exact Runs.evalText htable hmay fuel hs rfl text
  | evalForm form =>
    exact Runs.evalForm htable hmay fuel hs rfl (hrel _ (.head _)) fun ht => hapart ht form (.head _)
  | expand form =>
    exact Runs.expand hcalls hmay hs rfl (hrel _ (.head _)) fun ht => hapart ht form (.head _)
  | evaluate form env =>
    exact Runs.evaluate hcalls hs (hrel _ (.head _)) (hrel _ (.tail _ (.head _)))
      (hcall.frames _ (.head _))
  | apply procedure args =>
    exact Runs.apply hcalls hs (hrel _ (.head _)) (hrel _ (.tail _ (.head _)))

theorem becomes (htable : table.Alike (fun _ => True) fun _ => True) (hm : m.Intact)
    (hcall : call.Valid m) (fuel : Nat) :
    Becomes m.heap.roots.size m (m.after (call.run (interpreterWith table fuel))) :=
  becomes_of_runs (runs htable trivial hm.stands hcall (fun ht => nomatch ht) fuel)

end Call

/-- The machines that a host with the given procedures can come to have, from one with a heap of the
given size on, as long as it evaluates in frames only. It may also change the heap itself, with
arguments that are what they should be. -/
inductive Hosted (host : Procedures) (size : UInt32) : Machine → Prop
  | start {m : Machine} : Machine.start size.toNat = .ok m → Hosted host size m
  | call {m : Machine} {call : Call} (fuel : Nat) : Hosted host size m → call.Valid m →
    Hosted host size (m.after (call.run (interpreterWith (runBuiltin host) fuel)))
  | read {m : Machine} (failAtEnd : Bool) (tokens : List Token) : Hosted host size m →
    Hosted host size (m.after (Session.read failAtEnd tokens))
  | operate {m : Machine} {op : HeapOp} : Hosted host size m → op.Valid m.heap →
    (∀ r ∈ op.captured, m.heap.memory.kind r = .environment) →
    Hosted host size { m with heap := op.apply m.heap }
  | install {m : Machine} (procedure : HostProcedure) : Hosted host size m →
    Hosted host size (m.after (Session.defineHostProcedure procedure))
  | trace {m : Machine} (tracing : Bool) : Hosted host size m → Hosted host size { m with tracing }
  | flush {m : Machine} : Hosted host size m → Hosted host size { m with output := "" }

/-- The machines of a host whose procedures do what the machine has noted for them. -/
abbrev Reachable : UInt32 → Machine → Prop := Hosted Extension.procedures

variable {m : Machine} {size : UInt32}

/-- A machine starts with any heap, and it is intact. -/
theorem exists_start (size : UInt32) :
    ∃ m, start size.toNat = .ok m ∧ m.Intact ∧ m.heap.top ≤ 20 + furnishCost := by
  have hle : size.toNat ≤ maxSize := Nat.le_of_lt_succ size.toNat_lt
  obtain ⟨k, v, hk, -, hrules, hequipped, hstart, -⟩ := start_alike hle hle
  have hsound := hk.left
  rw [hrules] at hsound
  exact ⟨_, hstart, ⟨hsound.loosen id (fun heq => nomatch heq), hequipped.tidy.table, hk.globals,
    hk.transformers, hequipped.named, hequipped.fenced⟩, hequipped.top_le⟩

theorem Intact.read (hm : m.Intact) (failAtEnd : Bool) (tokens : List Token) :
    Becomes m.heap.roots.size m (m.after (Session.read failAtEnd tokens)) :=
  becomes_of_runs (Runs.read hm.stands rfl failAtEnd tokens)

theorem Intact.operate {op : HeapOp} (hm : m.Intact) (hop : op.Valid m.heap)
    (hcaptured : ∀ r ∈ op.captured, m.heap.memory.kind r = .environment) :
    { m with heap := op.apply m.heap }.Intact :=
  hm.evolve (HeapOp.evolves_under hm.sound ⟨Or.inr View.single_diagonal, hm.stands.ordered.pinned⟩
    (fun _ => hcaptured) hop)

theorem Intact.equip (hm : m.Intact) (procedure : HostProcedure) :
    { m with hostProcedures := m.hostProcedures.push procedure }.Intact :=
  ⟨hm.sound, hm.indexed, hm.globals, hm.transformers, hm.named, hm.fenced⟩

theorem Intact.install (hm : m.Intact) (procedure : HostProcedure) :
    Becomes 0 { m with hostProcedures := m.hostProcedures.push procedure }
      (m.after (Session.defineHostProcedure procedure)) := by
  let k : Machine := { m with hostProcedures := m.hostProcedures.push procedure }
  have hk : k.Intact := hm.equip procedure
  have hagrees := Agrees.defineBuiltin (n := 0) hk.stands.toCorr hk.stands.ordered rfl
    (fun _ _ => trivial) (Nat.zero_le _) hk.globals procedure.name
    (Primitive.table.size + m.hostProcedures.size) trivial
  have hruns : Runs 0 k k.view View.Rel _ _ := Runs.onHeap hagrees
  have hafter : m.after (Session.defineHostProcedure procedure) = k.after (Eval.onHeap
      (defineBuiltin m.globals procedure.name
        (Primitive.table.size + m.hostProcedures.size))) := rfl
  rw [hafter]
  exact becomes_of_runs hruns

/-- However a host goes on, its machine is intact if its procedures run alike. -/
theorem Hosted.intact_of_alike {host : Procedures} (hhost : host.Alike (fun _ => True) View.Loose)
    (hr : Hosted host size m) : m.Intact := by
  have htable := Procedures.Alike.runBuiltin trivial hhost
  induction hr with
  | start h =>
    obtain ⟨k, hstart, hk, -⟩ := exists_start size
    rw [hstart] at h
    exact Except.ok.inj h ▸ hk
  | call fuel _ hcall ih => exact (Call.becomes htable ih hcall fuel).intact ih
  | read failAtEnd tokens _ ih => exact (ih.read failAtEnd tokens).intact ih
  | operate _ hop hcaptured ih => exact ih.operate hop hcaptured
  | install procedure _ ih => exact (ih.install procedure).intact (ih.equip procedure)
  | trace _ _ ih => exact ⟨ih.sound, ih.indexed, ih.globals, ih.transformers, ih.named, ih.fenced⟩
  | flush _ ih => exact ⟨ih.sound, ih.indexed, ih.globals, ih.transformers, ih.named, ih.fenced⟩

theorem Hosted.intact (hr : Reachable size m) : m.Intact :=
  hr.intact_of_alike (Extension.alike trivial)

/-- What holds at the start and is kept by the steps of a heap holds of every machine. -/
theorem Hosted.invariant {P : Machine → Prop} (hr : Reachable size m)
    (hstart : ∀ k, Machine.start size.toNat = .ok k → P k)
    (hstep : ∀ n may (k k' : Machine), k.Intact → Evolves k.rules n may k.heap k'.heap →
      k'.transformers = k.transformers → P k → P k') : P m := by
  -- a machine that becomes another keeps what it remembers
  have hbecomes : ∀ {n k k'}, k.Intact → Becomes n k k' → P k → P k' := fun hk hb =>
    hstep _ _ _ _ hk hb.evolves (by rw [hb.same])
  have hsame : ∀ {k k' : Machine}, k.Intact → k'.heap = k.heap → k'.transformers = k.transformers →
      P k → P k' := fun hk hheap => hstep 0 (fun _ => True) _ _ hk (by
    rw [hheap]
    exact .refl hk.sound (Nat.zero_le _))
  induction hr with
  | start h => exact hstart _ h
  | call fuel hr hcall ih =>
    exact hbecomes hr.intact (Call.becomes (alike_builtins trivial) hr.intact hcall fuel) ih
  | read failAtEnd tokens hr ih => exact hbecomes hr.intact (hr.intact.read failAtEnd tokens) ih
  | operate hr hop hcaptured ih =>
    have hm := hr.intact
    exact hstep _ _ _ _ hm (HeapOp.evolves_under hm.sound
      ⟨Or.inr View.single_diagonal, hm.stands.ordered.pinned⟩ (fun _ => hcaptured) hop) rfl ih
  | install procedure hr ih =>
    exact hbecomes (hr.intact.equip procedure) (hr.intact.install procedure)
      (hsame hr.intact rfl rfl ih)
  | trace _ hr ih => exact hsame hr.intact rfl rfl ih
  | flush hr ih => exact hsame hr.intact rfl rfl ih

end Machine

end ArenaScheme
