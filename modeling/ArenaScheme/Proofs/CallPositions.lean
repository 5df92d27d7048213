import ArenaScheme.Proofs.HeapRuns
import ArenaScheme.Proofs.Scanning

/-! Where calls stand in a form, and which of them a scan may miss. A scan remembers the pairs it
has come upon, and does not tell those it came upon as forms from those it came upon as tails of
lists. So a pair that is both may be passed over, and only such a pair. -/

namespace ArenaScheme

open Memory Heap

variable {α : Type} {x : Eval α} {found : FoundCall} {h : Heap} {m m' : Machine} {car cdr r : Nat}
  {parent : Option Ref} {spine : Ref → Std.HashSet Ref → Scan}

/-- The pair at `q` is the one at `p` or comes after it in the same list. -/
inductive Heap.OnSpine (h : Heap) (p : Nat) : Nat → Prop
  | self : OnSpine h p p
  | next {q car cdr head tail : Nat} : OnSpine h p q → h.object q = .pair car cdr →
    h.object cdr = .pair head tail → OnSpine h p cdr

namespace Machine

/-- The pairs of a form that are evaluated as forms: the form itself, and the elements of the lists
that are such pairs, quotations apart. -/
inductive CallPosition (m : Machine) (form : Nat) : Nat → Prop
  | whole {head tail : Nat} : m.heap.object form = .pair head tail → CallPosition m form form
  | element {p q r head tail cdr first rest : Nat} : CallPosition m form p →
    m.heap.object p = .pair head tail → head ≠ m.keywords.quote → m.heap.OnSpine p q →
    m.heap.object q = .pair r cdr → m.heap.object r = .pair first rest → CallPosition m form r

/-- The pairs of the lists that stand in call position, quotations apart. -/
def Listed (m : Machine) (form q : Nat) : Prop :=
  ∃ p head tail, m.CallPosition form p ∧ m.heap.object p = .pair head tail ∧
    head ≠ m.keywords.quote ∧ m.heap.OnSpine p q

/-- The pair at `r` comes after another one in such a list. -/
def IsTail (m : Machine) (form r : Nat) : Prop :=
  ∃ q car, m.Listed form q ∧ m.heap.object q = .pair car r

/-- No call of a transformer stands in call position, except where it is a tail as well. -/
def Settled (m : Machine) (form : Nat) : Prop :=
  ∀ r head tail, m.CallPosition form r → m.heap.object r = .pair head tail →
    m.isTransformer head = true → head = m.keywords.quote ∨ m.IsTail form r

/-- The sub-form of a pair and the pair after it have been met. -/
def Closed (m : Machine) (met : Std.HashSet Ref) (x : Nat) : Prop :=
  ∀ car cdr, m.heap.object x = .pair car cdr →
    (∀ head tail, m.heap.object car = .pair head tail → head ≠ m.keywords.quote →
      met.contains car = true) ∧
    ∀ head tail, m.heap.object cdr = .pair head tail → met.contains cdr = true

/-- A pair that is no call of a transformer, or else a tail. -/
def Cleared (m : Machine) (form x : Nat) : Prop :=
  ∀ head tail, m.heap.object x = .pair head tail → m.isTransformer head = true → m.IsTail form x

/-- What a scan of a part of `form` that finds nothing has done. -/
structure Swept (m : Machine) (form : Nat) (old new : Std.HashSet Ref) : Prop where
  grows : ∀ x, old.contains x = true → new.contains x = true
  closed : ∀ x, old.contains x = false → new.contains x = true → m.Closed new x
  cleared : ∀ x, old.contains x = false → new.contains x = true → m.Cleared form x

variable {m : Machine} {form : Nat} {old mid new : Std.HashSet Ref}

theorem Closed.mono {x : Nat} (h : m.Closed mid x)
    (hgrows : ∀ x, mid.contains x = true → new.contains x = true) : m.Closed new x := by
  intro car cdr ho
  obtain ⟨hcar, hcdr⟩ := h car cdr ho
  exact ⟨fun head tail hpair hne => hgrows _ (hcar head tail hpair hne),
    fun head tail hpair => hgrows _ (hcdr head tail hpair)⟩

namespace Swept

theorem refl : m.Swept form old old where
  grows _ h := h
  closed x hout hin := by rw [hout] at hin; cases hin
  cleared x hout hin := by rw [hout] at hin; cases hin

theorem trans (h : m.Swept form old mid) (g : m.Swept form mid new) : m.Swept form old new where
  grows x hx := g.grows x (h.grows x hx)
  closed x hout hin := by
    cases hmid : mid.contains x with
    | true => exact (h.closed x hout hmid).mono g.grows
    | false => exact g.closed x hmid hin
  cleared x hout hin := by
    cases hmid : mid.contains x with
    | true => exact h.cleared x hout hmid
    | false => exact g.cleared x hmid hin

/-- The pair that was met first is accounted for last. -/
theorem of_insert {x : Nat} (h : m.Swept form (old.insert x) new) (hclosed : m.Closed new x)
    (hcleared : m.Cleared form x) : m.Swept form old new := by
  have hinsert : ∀ y, (old.insert x).contains y = (x == y || old.contains y) := fun _ =>
    Std.HashSet.contains_insert
  have hnew : ∀ y, y ≠ x → old.contains y = false → (old.insert x).contains y = false := by
    intro y hne hout
    rw [hinsert, hout, Bool.or_false]
    exact beq_false_of_ne hne.symm
  refine ⟨fun y hy => h.grows y ?_, fun y hout hin => ?_, fun y hout hin => ?_⟩
  · rw [hinsert, hy, Bool.or_true]
  · by_cases heq : y = x
    · exact heq ▸ hclosed
    · exact h.closed y (hnew y heq hout) hin
  · by_cases heq : y = x
    · exact heq ▸ hcleared
    · exact h.cleared y (hnew y heq hout) hin

end Swept

theorem isPair_of_object (ho : h.object r = .pair car cdr) : h.isPair r = true :=
  beq_iff_eq.mpr (kind_of_pair ho).1

theorem object_of_isPair (hr : h.isPair r = true) : ∃ car cdr, h.object r = .pair car cdr := by
  have hkind : h.kind r = .pair := beq_iff_eq.mp hr
  exact ⟨h.field r 0, h.field r 1, by rw [object, hkind]⟩

/-! There is fuel enough: each step meets another pair. -/

/-- How many positions a scan has not met. -/
def unseen (m : Machine) (met : Std.HashSet Ref) : Nat :=
  (List.range m.heap.capacity).countP fun r => !met.contains r

theorem lt_capacity_of_pair (ho : h.object r = .pair car cdr) : r < h.capacity := by
  refine Decidable.byContradiction fun hlt => ?_
  have hkind := (kind_of_pair ho).1
  have hout : ¬ r < h.memory.stored.size := fun hr =>
    hlt (Nat.lt_of_lt_of_le hr h.memory.stored_le)
  rw [Memory.kind, Memory.byte, dif_neg hout] at hkind
  cases hkind

theorem unseen_insert (ho : m.heap.object r = .pair car cdr) (hout : old.contains r = false) :
    m.unseen (old.insert r) < m.unseen old := by
  have hinsert : ∀ y, (old.insert r).contains y = (r == y || old.contains y) := fun _ =>
    Std.HashSet.contains_insert
  refine countP_lt_countP (List.mem_range.mpr (lt_capacity_of_pair ho)) (fun y _ hy => ?_)
    (by simp only [hout, Bool.not_false]) (by simp [hinsert])
  rw [hinsert, Bool.not_or, Bool.and_eq_true] at hy
  exact hy.2

theorem Swept.unseen_le (h : m.Swept form old new) : m.unseen new ≤ m.unseen old := by
  refine List.countP_mono_left fun r _ hr => ?_
  cases hold : old.contains r with
  | false => rfl
  | true =>
    rw [h.grows r hold] at hr
    cases hr

/-- What a scan of lists must do for the scan of a form that uses it. -/
def SweepsSpine (m : Machine) (form fuel : Nat) (spine : Ref → Std.HashSet Ref → Scan) : Prop :=
  ∀ q old new, m.Listed form q → m.unseen old < fuel → spine q old = (new, none) →
    m.Swept form old new ∧ m.Closed new q

theorem sweeps_form {fuel : Nat} (hspine : m.SweepsSpine form fuel spine)
    (hposition : ∀ head tail, m.heap.object r = .pair head tail → m.CallPosition form r)
    (hfuel : m.unseen old ≤ fuel) (hrun : m.scanForm spine parent r old = (new, none)) :
    m.Swept form old new ∧
      ∀ head tail, m.heap.object r = .pair head tail → head ≠ m.keywords.quote →
        new.contains r = true := by
  unfold scanForm at hrun
  cases ho : m.heap.object r with
  | pair head tail =>
    simp only [ho] at hrun
    by_cases hgo : (decide (head = m.keywords.quote) || old.contains r) = true
    · rw [if_pos hgo] at hrun
      cases hrun
      refine ⟨.refl, fun head' tail' heq hne => ?_⟩
      cases heq
      simpa [hne] using hgo
    · rw [if_neg hgo] at hrun
      simp only [Bool.or_eq_true, decide_eq_true_eq, not_or, Bool.not_eq_true] at hgo
      have hlisted : m.Listed form r := ⟨r, head, tail, hposition _ _ ho, ho, hgo.1, .self⟩
      have hlt := unseen_insert ho hgo.2
      cases hscan : spine r (old.insert r) with
      | mk met found =>
        rw [hscan] at hrun
        cases found with
        | some found => cases hrun
        | none =>
          simp only [Prod.mk.injEq] at hrun
          obtain ⟨rfl, hfound⟩ := hrun
          obtain ⟨hswept, hclosed⟩ := hspine r _ _ hlisted (by omega) hscan
          refine ⟨hswept.of_insert hclosed fun head' tail' heq htransformer => ?_,
            fun _ _ _ _ => hswept.grows r ?_⟩
          · cases ho.symm.trans heq
            rw [if_pos htransformer] at hfound
            cases hfound
          · rw [Std.HashSet.contains_insert, beq_self_eq_true, Bool.true_or]
  | _ =>
    simp only [ho] at hrun
    cases hrun
    exact ⟨.refl, fun _ _ heq => nomatch heq⟩

theorem sweeps_spine (m : Machine) (form fuel : Nat) :
    m.SweepsSpine form fuel (m.scanSpine fuel) := by
  induction fuel with
  | zero => exact fun _ _ _ _ hfuel => absurd hfuel (Nat.not_lt_zero _)
  | succ fuel ih =>
    intro q old new hlisted hfuel hrun
    unfold scanSpine at hrun
    cases ho : m.heap.object q with
    | pair car cdr =>
      simp only [ho] at hrun
      obtain ⟨p, head, tail, hposition, hp, hne, hspine⟩ := hlisted
      cases hscan : m.scanForm (m.scanSpine fuel) (some q) car old with
      | mk met found =>
        rw [hscan] at hrun
        cases found with
        | some found => cases hrun
        | none =>
          obtain ⟨hswept, hcar⟩ := sweeps_form ih
            (fun _ _ hpair => .element hposition hp hne hspine ho hpair) (by omega) hscan
          simp only at hrun
          by_cases hgo : (!m.heap.isPair cdr || met.contains cdr) = true
          · rw [if_pos hgo] at hrun
            cases hrun
            refine ⟨hswept, fun car' cdr' heq => ?_⟩
            cases ho.symm.trans heq
            refine ⟨hcar, fun head' tail' hpair => ?_⟩
            simpa [isPair_of_object hpair] using hgo
          · rw [if_neg hgo] at hrun
            simp only [Bool.or_eq_true, not_or, Bool.not_eq_true, Bool.not_eq_false'] at hgo
            obtain ⟨head', tail', hpair⟩ := object_of_isPair hgo.1
            have hlisted' : m.Listed form cdr :=
              ⟨p, head, tail, hposition, hp, hne, hspine.next ho hpair⟩
            have hlt := unseen_insert hpair hgo.2
            have hle := hswept.unseen_le
            obtain ⟨hswept', hclosed⟩ := ih cdr _ _ hlisted' (by omega) hrun
            have htail : m.IsTail form cdr :=
              ⟨q, car, ⟨p, head, tail, hposition, hp, hne, hspine⟩, ho⟩
            have hrest := hswept'.of_insert hclosed fun _ _ _ _ => htail
            refine ⟨hswept.trans hrest, fun car' cdr' heq => ?_⟩
            cases ho.symm.trans heq
            refine ⟨fun _ _ hpair hne => hrest.grows _ (hcar _ _ hpair hne), fun _ _ _ => ?_⟩
            refine hswept'.grows _ ?_
            rw [Std.HashSet.contains_insert, beq_self_eq_true, Bool.true_or]
    | _ =>
      simp only [ho] at hrun
      cases hrun
      exact ⟨.refl, fun _ _ heq => by cases ho.symm.trans heq⟩

/-- Once everything below a form has been met, so has every pair of its lists. -/
theorem onSpine_met {met : Std.HashSet Ref} (hclosed : ∀ x, met.contains x = true → m.Closed met x)
    {p q : Nat} (hp : met.contains p = true) (hq : m.heap.OnSpine p q) :
    met.contains q = true := by
  induction hq with
  | self => exact hp
  | next _ hq hpair ih => exact (hclosed _ ih _ _ hq).2 _ _ hpair

theorem CallPosition.met {met : Std.HashSet Ref}
    (hform : ∀ head tail, m.heap.object form = .pair head tail → head ≠ m.keywords.quote →
      met.contains form = true)
    (hclosed : ∀ x, met.contains x = true → m.Closed met x) (hr : m.CallPosition form r)
    {head tail : Nat} (ho : m.heap.object r = .pair head tail) (hne : head ≠ m.keywords.quote) :
    met.contains r = true := by
  induction hr generalizing head tail with
  | whole _ => exact hform head tail ho hne
  | element _ hp hne' hspine hq _ ih =>
    exact (hclosed _ (onSpine_met hclosed (ih hp hne') hspine) _ _ hq).1 head tail ho hne

/-- A scan that finds nothing leaves no call, except where it is a tail as well. -/
theorem settled_of_findCall (hnone : m.findCall form = none) : m.Settled form := by
  unfold findCall at hnone
  cases hscan : m.scanForm (m.scanSpine (m.heap.capacity + 1)) none form ∅ with
  | mk met found =>
    rw [hscan] at hnone
    obtain rfl : found = none := hnone
    have hfuel : m.unseen ∅ ≤ m.heap.capacity + 1 :=
      Nat.le_succ_of_le (Nat.le_trans List.countP_le_length (Nat.le_of_eq List.length_range))
    obtain ⟨hswept, hform⟩ :=
      sweeps_form (m.sweeps_spine form _) (fun _ _ ho => .whole ho) hfuel hscan
    intro r head tail hr ho htransformer
    by_cases hne : head = m.keywords.quote
    · exact Or.inl hne
    · have hmet := hr.met hform
        (fun x hx => hswept.closed x Std.HashSet.contains_empty hx) ho hne
      exact Or.inr (hswept.cleared r Std.HashSet.contains_empty hmet head tail ho htransformer)

/-! What a scan finds is a call. -/

/-- The pair whose first field holds the form at `r`, or nothing if that is the whole form. -/
def Holds (m : Machine) (form : Nat) (parent : Option Ref) (r : Nat) : Prop :=
  match parent with
  | none => r = form
  | some q => m.Listed form q ∧ ∃ cdr, m.heap.object q = .pair r cdr

/-- A call of a transformer in call position, and the pair that holds it. -/
structure IsCall (m : Machine) (form : Nat) (found : FoundCall) : Prop where
  position : m.CallPosition form found.call
  holds : m.Holds form found.parent found.call
  head : ∃ head tail, m.heap.object found.call = .pair head tail ∧ m.isTransformer head = true

theorem found_form
    (hspine : ∀ q old new, m.Listed form q → spine q old = (new, some found) → m.IsCall form found)
    (hposition : ∀ head tail, m.heap.object r = .pair head tail → m.CallPosition form r)
    (hholds : m.Holds form parent r) (hrun : m.scanForm spine parent r old = (new, some found)) :
    m.IsCall form found := by
  unfold scanForm at hrun
  cases ho : m.heap.object r with
  | pair head tail =>
    simp only [ho] at hrun
    by_cases hgo : (decide (head = m.keywords.quote) || old.contains r) = true
    · rw [if_pos hgo] at hrun
      cases hrun
    · rw [if_neg hgo] at hrun
      simp only [Bool.or_eq_true, decide_eq_true_eq, not_or, Bool.not_eq_true] at hgo
      cases hscan : spine r (old.insert r) with
      | mk met inner =>
        rw [hscan] at hrun
        cases inner with
        | some inner =>
          cases hrun
          exact hspine r _ _ ⟨r, head, tail, hposition _ _ ho, ho, hgo.1, .self⟩ hscan
        | none =>
          simp only [Prod.mk.injEq] at hrun
          obtain ⟨rfl, hfound⟩ := hrun
          by_cases htransformer : m.isTransformer head = true
          · rw [if_pos htransformer] at hfound
            cases hfound
            exact ⟨hposition _ _ ho, hholds, head, tail, ho, htransformer⟩
          · rw [if_neg htransformer] at hfound
            cases hfound
  | _ =>
    simp only [ho] at hrun
    cases hrun

theorem found_spine (m : Machine) (form fuel : Nat) (q : Nat) (old new : Std.HashSet Ref)
    (hlisted : m.Listed form q) (hrun : m.scanSpine fuel q old = (new, some found)) :
    m.IsCall form found := by
  induction fuel generalizing q old new with
  | zero => cases hrun
  | succ fuel ih =>
    unfold scanSpine at hrun
    cases ho : m.heap.object q with
    | pair car cdr =>
      simp only [ho] at hrun
      obtain ⟨p, head, tail, hposition, hp, hne, hspine⟩ := id hlisted
      cases hscan : m.scanForm (m.scanSpine fuel) (some q) car old with
      | mk met inner =>
        rw [hscan] at hrun
        cases inner with
        | some inner =>
          cases hrun
          have hholds : m.Holds form (some q) car := ⟨hlisted, cdr, ho⟩
          exact found_form ih (fun _ _ hpair => .element hposition hp hne hspine ho hpair) hholds
            hscan
        | none =>
          simp only at hrun
          by_cases hgo : (!m.heap.isPair cdr || met.contains cdr) = true
          · rw [if_pos hgo] at hrun
            cases hrun
          · rw [if_neg hgo] at hrun
            simp only [Bool.or_eq_true, not_or, Bool.not_eq_true, Bool.not_eq_false'] at hgo
            obtain ⟨_, _, hpair⟩ := object_of_isPair hgo.1
            exact ih cdr _ _ ⟨p, head, tail, hposition, hp, hne, hspine.next ho hpair⟩ hrun
    | _ =>
      simp only [ho] at hrun
      cases hrun

theorem isCall_of_findCall (hsome : m.findCall form = some found) : m.IsCall form found := by
  unfold findCall at hsome
  cases hscan : m.scanForm (m.scanSpine (m.heap.capacity + 1)) none form ∅ with
  | mk met inner =>
    rw [hscan] at hsome
    obtain rfl : inner = some found := hsome
    have hholds : m.Holds form none form := rfl
    exact found_form (m.found_spine form _) (fun _ _ ho => .whole ho) hholds hscan

end Machine

/-! Expansion goes on until a scan finds nothing. -/

namespace Eval

theorem get_bind (f : Machine → Eval α) : (get >>= f) m = f m m := rfl

theorem exists_of_bind {β : Type} {f : α → Eval β} {b : β} (h : (x >>= f) m = .ok b m') :
    ∃ a k, x m = .ok a k ∧ f a k = .ok b m' := by
  change EStateM.bind x f m = .ok b m' at h
  unfold EStateM.bind at h
  cases hx : x m with
  | ok a k =>
    rw [hx] at h
    exact ⟨a, k, rfl, h⟩
  | error stop k =>
    rw [hx] at h
    cases h

theorem exists_of_keepingRoots {a : α} (h : keepingRoots x m = .ok a m') :
    ∃ k count, x m = .ok a k ∧
      m' = { k with heap := { k.heap with roots := k.heap.roots.shrink count } } := by
  unfold keepingRoots at h
  obtain ⟨count, k, hcount, h⟩ := exists_of_bind h
  cases hcount
  simp only [tryFinally, tryFinally', Functor.map, EStateM.map] at h
  cases hx : x m with
  | ok b k =>
    simp only [hx] at h
    cases h
    exact ⟨k, m.heap.roots.size, rfl, rfl⟩
  | error stop k =>
    simp only [hx] at h
    cases h

end Eval

namespace Machine

variable {calls : Calls} {m m' : Machine} {slot form result : Nat}

theorem findCall_of_expandIn {rounds : Nat}
    (h : expandIn calls slot rounds m = .ok () m') : m'.findCall (m'.heap.root slot) = none := by
  induction rounds generalizing m with
  | zero => cases h
  | succ rounds ih =>
    rw [expandIn, Eval.get_bind] at h
    cases hcall : m.findCall (m.heap.root slot) with
    | none =>
      simp only [hcall] at h
      cases h
      exact hcall
    | some found =>
      obtain ⟨parent, call⟩ := found
      simp only [hcall] at h
      obtain ⟨count, k, hcount, h⟩ := Eval.exists_of_bind h
      cases parent with
      | none =>
        simp only at h
        obtain ⟨_, _, _, h⟩ := Eval.exists_of_bind h
        obtain ⟨_, _, _, h⟩ := Eval.exists_of_bind h
        obtain ⟨_, _, _, h⟩ := Eval.exists_of_bind h
        exact ih h
      | some pair =>
        simp only at h
        obtain ⟨_, _, _, h⟩ := Eval.exists_of_bind h
        obtain ⟨_, _, _, h⟩ := Eval.exists_of_bind h
        obtain ⟨_, _, _, h⟩ := Eval.exists_of_bind h
        obtain ⟨_, _, _, h⟩ := Eval.exists_of_bind h
        obtain ⟨_, _, _, h⟩ := Eval.exists_of_bind h
        exact ih h

/-! Roots do not matter to a scan. -/

theorem findBindingFrom_withRoots (h : Heap) (roots : Array Ref) (symbol : Ref) (fuel : Nat)
    (node : Ref) :
    { h with roots }.findBindingFrom symbol fuel node = h.findBindingFrom symbol fuel node := by
  induction fuel generalizing node with
  | zero => rfl
  | succ fuel ih =>
    unfold findBindingFrom
    simp only [ih]
    rfl

theorem isTransformer_withRoots (m : Machine) (roots : Array Ref) (head : Ref) :
    Machine.isTransformer { m with heap := { m.heap with roots } } head = m.isTransformer head := by
  unfold isTransformer findBinding
  simp only [findBindingFrom_withRoots]
  rfl

theorem scanSpine_withRoots (m : Machine) (roots : Array Ref) (fuel : Nat) :
    Machine.scanSpine { m with heap := { m.heap with roots } } fuel = m.scanSpine fuel := by
  induction fuel with
  | zero => rfl
  | succ fuel ih =>
    funext q met
    unfold scanSpine scanForm
    simp only [ih, isTransformer_withRoots]
    rfl

theorem findCall_withRoots (m : Machine) (roots : Array Ref) (form : Ref) :
    Machine.findCall { m with heap := { m.heap with roots } } form = m.findCall form := by
  unfold findCall scanForm
  simp only [isTransformer_withRoots, scanSpine_withRoots]
  rfl

theorem findCall_of_expand
    (hdefines : ∀ tail, m.heap.object form ≠ .pair m.keywords.defineTransformer tail)
    (h : expand calls form m = .ok result m') : m'.findCall result = none := by
  unfold expand at h
  obtain ⟨k, count, hrun, rfl⟩ := Eval.exists_of_keepingRoots h
  rw [findCall_withRoots]
  obtain ⟨_, _, hget, hrun⟩ := Eval.exists_of_bind hrun
  cases hget
  obtain ⟨_, _, hobject, hrun⟩ := Eval.exists_of_bind hrun
  cases hobject
  obtain ⟨slot, _, _, hrun⟩ := Eval.exists_of_bind hrun
  rw [if_neg] at hrun
  rotate_left
  · cases ho : m.heap.object form with
    | pair head tail =>
      intro heq
      exact hdefines tail (by rw [ho, beq_iff_eq.mp heq])
    | _ => exact Bool.false_ne_true
  obtain ⟨_, _, hexpand, hrun⟩ := Eval.exists_of_bind hrun
  cases hrun
  exact findCall_of_expandIn hexpand

/-- A call that a scan finds is one. A scan that finds none, and so every expansion that succeeds,
leaves no call of a transformer in call position, except for pairs that are tails as well. -/
theorem expansion_settles (m : Machine) (form : Ref) :
    (∀ found, m.findCall form = some found → m.IsCall form found) ∧
    (m.findCall form = none → m.Settled form) ∧
    ∀ calls result m', (∀ tail, m.heap.object form ≠ .pair m.keywords.defineTransformer tail) →
      expand calls form m = .ok result m' → m'.Settled result :=
  ⟨fun _ => isCall_of_findCall, settled_of_findCall,
    fun _ _ _ hdefines h => settled_of_findCall (findCall_of_expand hdefines h)⟩

/-- A machine with the transformer `one` and the form `((() one) (one))`, whose list `(one)` is a
sub-form and the tail of another list. -/
def sharedTail : Machine where
  heap := (Heap.new 0).after do
    let _ ← HeapM.intern "quote"
    let one ← HeapM.intern "one"
    let frame ← HeapM.environment none
    HeapM.putBinding frame one null
    let call ← HeapM.cons one null
    let list ← HeapM.cons null call
    let rest ← HeapM.cons call null
    HeapM.cons list rest
  keywords := { (default : Keywords) with quote := 20 }
  globals := 70
  transformers := 70
  hostProcedures := #[]
  output := ""
  tracing := false


/-- The scan comes upon `(one)` as a tail first and passes over it as a sub-form. -/
theorem findCall_sharedTail : sharedTail.findCall 143 = none ∧
    sharedTail.CallPosition 143 104 ∧
    sharedTail.heap.object 104 = .pair 46 null ∧
    sharedTail.isTransformer 46 = true ∧ 46 ≠ sharedTail.keywords.quote := by
  have hheap : sharedTail.heap.object 143 = .pair 117 130 ∧
      sharedTail.heap.object 117 = .pair null 104 ∧
      sharedTail.heap.object 130 = .pair 104 null ∧
      sharedTail.heap.object 104 = .pair 46 null ∧
      sharedTail.heap.object 46 = .symbol ∧ sharedTail.heap.object null = .null ∧
      sharedTail.heap.isPair null = false ∧ sharedTail.heap.capacity = 256 ∧
      sharedTail.isTransformer null = false ∧
      sharedTail.isTransformer 117 = false ∧
      sharedTail.isTransformer 46 = true := by decide +kernel
  obtain ⟨hform, hlist, hrest, hcall, hname, hnull, hempty, hcapacity, hother, hother', hone⟩ := hheap
  have hquote : sharedTail.keywords.quote = 20 := rfl
  have hne : ¬ null = 20 := by decide
  refine ⟨?_, ?_, hcall, hone, by decide⟩
  · simp [findCall, scanForm, scanSpine, hform, hlist, hrest, hcall, hname, hnull,
      hempty, hcapacity, hquote, hother, hother', hne, isPair_of_object hrest,
      isPair_of_object hcall]
  · exact .element (.whole hform) hform (by decide) (.next .self hform hrest) hrest hcall

end Machine

end ArenaScheme
