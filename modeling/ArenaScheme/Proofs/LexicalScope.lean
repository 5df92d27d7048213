import ArenaScheme.Proofs.FrameSteps

/-! Frames on the heap are lexical scope. After any operations of a client the heap depicts the store
that these lead to, and every operation ends as it does on the store, unless there is no room. -/

namespace ArenaScheme

open Memory Heap

variable {α : Type} {large : Prop} {rest : Bool} {result : EStateM.Result Fault Heap α} {back : Heap → Prop}
  {more values : List Nat} {arity f fixed formals i need p r u : Nat}

theorem set_of_getElem? {xs : List Nat} {x : Nat} (h : xs[i]? = some x) : xs.set i x = xs := by
  obtain ⟨hlt, rfl⟩ := List.getElem?_eq_some_iff.mp h
  exact List.set_getElem_self hlt

namespace Portrays

variable {ground : Ground} {A : Store} {slots : List Nat} {pos : Nat → Nat → Prop} {h : Heap}

theorem setRoot (hd : Portrays ground A slots pos h) (s : Slot) (hi : pos i r) :
    Portrays ground A (slots.set s i) pos { h with roots := h.roots.setIfInBounds s r } := by
  refine hd.withRoots ?_
  rw [Array.toList_setIfInBounds]
  have hslots := hd.slots
  generalize h.roots.toList = roots at hslots
  clear hd
  induction hslots generalizing s with
  | nil => exact .nil
  | cons hpos hrest ih =>
    cases s with
    | zero => exact .cons hi hrest
    | succ s => exact .cons hpos (ih s)

/-- The parts of a pair, with the check that it is one. -/
theorem car {p r : Nat} (hd : Portrays ground A slots pos h) (hp : pos p r) :
    (∃ fault, A.expect .pair "pair" p = .error fault ∧ h.car r = .error fault) ∨
    (A.expect .pair "pair" p = .ok () ∧ ∃ a, h.car r = .ok a ∧ pos (A.car p) a) := by
  unfold Heap.car
  rw [← hd.expect hp]
  cases hpair : A.expect .pair "pair" p with
  | error fault => exact Or.inl ⟨fault, rfl, rfl⟩
  | ok _ =>
    obtain ⟨car, cdr, hitem, hcar, -⟩ :=
      (hd.item_at hp).eq_pair hd.sound ((hd.expect_eq_ok hp).mp hpair)
    refine Or.inr ⟨rfl, _, rfl, ?_⟩
    rw [Store.car, hitem]
    exact hcar

theorem cdr {p r : Nat} (hd : Portrays ground A slots pos h) (hp : pos p r)
    (hpair : A.expect .pair "pair" p = .ok ()) : ∃ d, h.cdr r = .ok d ∧ pos (A.cdr p) d := by
  obtain ⟨car, cdr, hitem, -, hcdr⟩ :=
    (hd.item_at hp).eq_pair hd.sound ((hd.expect_eq_ok hp).mp hpair)
  unfold Heap.cdr
  rw [← hd.expect hp, hpair]
  refine ⟨_, rfl, ?_⟩
  rw [Store.cdr, hitem]
  exact hcdr

end Portrays

namespace HeapM

/-- What `extend` does once the number of arguments is right. -/
theorem extend_run (parent formals : Ref) (arity : Nat) (rest : Bool)
    (args : Slot) (h : Heap) :
    extend parent formals arity rest args h =
      match fixedParameters arity rest (h.roots.size - args) with
      | .error fault => .error fault h
      | .ok fixed =>
        ((if rest then listOnto (args + fixed) (h.roots.size - args - fixed) null
          else pure null) >>= fun list => pushRoot list >>= fun surplus => do
            let frame ← pushRoot (← environment (some (← root h.roots.size)))
            bindFormals args fixed (h.roots.size + 1) surplus frame arity 0
            let result ← root frame
            releaseRoots h.roots.size
            return result : HeapM Ref) { h with roots := (h.roots.push parent).push formals } := by
  unfold extend
  rw [rootCount_bind, query_bind]
  cases fixedParameters arity rest (h.roots.size - args) with
  | error fault => rfl
  | ok fixed =>
    simp only [pushRoot_bind, Array.size_push]
    cases rest with
    | false => simp only [Bool.false_eq_true, if_false]
    | true => simp only [if_true]

theorem fixedParameters_eq_ok {received : Nat}
    (hfixed : fixedParameters arity rest received = .ok fixed) :
    fixed ≤ received ∧ arity = fixed + if rest then 1 else 0 := by
  unfold fixedParameters at hfixed
  cases rest with
  | true =>
    simp only [if_true] at hfixed ⊢
    split at hfixed
    · cases hfixed
    · split at hfixed
      · cases hfixed
      · cases hfixed
        omega
  | false =>
    simp only [Bool.false_eq_true, if_false] at hfixed ⊢
    split at hfixed
    · cases hfixed
      omega
    · cases hfixed

end HeapM

/-- The meaning of `extend` once the number of arguments is right. -/
theorem Store.extend_eq {A B : Store} {args : List Nat}
    (hparent : A.expect .environment "environment" p = .ok ())
    (hfixed : HeapM.fixedParameters arity rest args.length = .ok fixed)
    (hmade : (if rest then A.list 0 (args.drop fixed) else (0, A)) = (u, B)) :
    A.extend p f arity rest args =
      ((B.make (.frame (some p) fun _ => none)).2.bindAll B.items.length f
        (args.take fixed ++ if rest then [u] else [])).map fun C => (B.items.length, C) := by
  unfold Store.extend
  rw [hparent, hfixed]
  simp only [bind, Except.bind, hmade, Store.make]
  generalize Store.bindAll _ _ _ _ = result
  cases result <;> rfl

/-- Each parameter takes the argument in its place, and a rest parameter takes the list `u`. -/
theorem parameter_values {slots : List Nat} {args : Nat} (hle : fixed ≤ slots.length - args)
    (harity : arity = fixed + if rest then 1 else 0) (u : Nat) :
    ((slots.drop args).take fixed ++ if rest then [u] else []).length = arity ∧
      ∀ j < arity, ((slots.drop args).take fixed ++ if rest then [u] else [])[j]? =
        if j < fixed then slots[args + j]? else some u := by
  have hlength : ((slots.drop args).take fixed).length = fixed := by
    rw [List.length_take, List.length_drop, Nat.min_eq_left hle]
  refine ⟨?_, fun j hj => ?_⟩
  · rw [List.length_append, hlength, harity]
    cases rest <;> rfl
  · by_cases hlt : j < fixed
    · rw [if_pos hlt, List.getElem?_append_left (by rwa [hlength]), List.getElem?_take_of_lt hlt,
        List.getElem?_drop]
    · cases rest with
      | false =>
        simp only [Bool.false_eq_true, if_false, Nat.add_zero] at harity
        omega
      | true =>
        simp only [if_true] at harity
        obtain rfl : j = fixed := by omega
        rw [if_neg hlt, List.getElem?_append_right (Nat.le_of_eq hlength), hlength, Nat.sub_self]
        rfl

theorem Store.expect_setVar (A : Store) (f s v : Nat) (kind : Kind) (expected : String) (i : Nat) :
    (A.setVar f s v).expect kind expected i = A.expect kind expected i := by
  have hkind : ((A.setVar f s v).item i).kind = (A.item i).kind := by
    unfold Store.item
    rw [Store.items_setVar]
    cases A.items[i]? with
    | none => rfl
    | some item =>
      simp only [Option.map_some, Option.getD_some]
      split
      · cases item <;> rfl
      · rfl
  unfold Store.expect
  rw [hkind]

namespace Portrays

variable {ground : Ground} {A B : Store} {slots : List Nat} {pos : Nat → Nat → Prop} {h : Heap}

/-- The loop over the parameters. What it has done when it fails is in things that are newer than
those of `A`. -/
theorem bindFormals (args fixed cursor surplus frame i : Nat) {count : Nat}
    (hd : Portrays ground B slots pos h) (hgrows : A.Grows B) (hf : A.items.length ≤ f)
    (hframe : slots[frame]? = some f) (hcursor : slots[cursor]? = some formals)
    (hne : frame ≠ cursor) (hlength : values.length = count)
    (hslots : ∀ j < count, (if i + j < fixed then args + (i + j) else surplus) ≠ cursor)
    (hvalues : ∀ j < count,
      values[j]? = slots[if i + j < fixed then args + (i + j) else surplus]?) :
    h.Meets large (fieldsSize 4 * count) (B.bindAll f formals values)
      (fun C _ g => ∃ list, g.Represents ground C (slots.set cursor list))
      (fun g => ∃ C list, A.Grows C ∧ g.Represents ground C (slots.set cursor list))
      (HeapM.bindFormals args fixed cursor surplus frame count i h) := by
  induction count generalizing B slots pos h i formals values with
  | zero =>
    obtain rfl := List.length_eq_zero_iff.mp hlength
    refine .ok rfl ⟨formals, pos, ?_⟩ (Nat.le_refl _)
    rwa [set_of_getElem? hcursor]
  | succ count ih =>
    obtain ⟨v, values, rfl⟩ := List.exists_cons_of_length_eq_add_one hlength
    have hback : ∀ g : Heap, g.Represents ground B slots →
        ∃ C list, A.Grows C ∧ g.Represents ground C (slots.set cursor list) := fun g hg =>
      ⟨B, formals, hgrows, by rwa [set_of_getElem? hcursor]⟩
    have hat : ∀ {s x}, slots[s]? = some x → pos x (h.root s) := fun {s x} hx => by
      have := hd.slot s
      rwa [hx] at this
    have hfirst := hvalues 0 (Nat.succ_pos _)
    rw [List.getElem?_cons_zero, Nat.add_zero] at hfirst
    rw [HeapM.bindFormals, HeapM.root_bind, HeapM.query_bind, Store.bindAll]
    rcases hd.car (hat hcursor) with ⟨fault, habstract, hconcrete⟩ | ⟨hpair, a, hconcrete, ha⟩
    · rw [habstract, hconcrete]
      exact .refused rfl (hback h ⟨pos, hd⟩)
    rw [hpair, hconcrete]
    simp only [HeapM.root_bind]
    have hdefine : h.Meets large _ _ _ _ _ := hd.define (hat hframe) ha (hat hfirst.symm)
    generalize hrun : HeapM.define (h.root frame) a
      (h.root (if i < fixed then args + i else surplus)) h = result at hdefine
    generalize hexpect : B.define f (B.car formals) v = expected at hdefine
    cases hdefine with
    | refused hexpected hg =>
      subst hexpected
      rw [HeapM.bind_error hrun]
      exact .refused rfl (hback _ hg)
    | exhausted hfault hgt hg =>
      rw [HeapM.bind_error hrun]
      exact .exhausted hfault (by rw [Nat.mul_succ]; omega) (hback _ hg)
    | @ok C _ g hexpected hg htop =>
      subst hexpected
      obtain ⟨pos', hd'⟩ := hg
      obtain ⟨-, rfl⟩ := Store.define_eq_ok hexpect
      have hlist' := hd'.slot cursor
      rw [hcursor] at hlist'
      obtain ⟨d, hcdr, hd''⟩ := hd'.cdr hlist' (by rw [Store.expect_setVar]; exact hpair)
      rw [HeapM.bind_ok hrun, HeapM.root_bind, HeapM.query_bind, hcdr]
      simp only [HeapM.setRoot_bind]
      have hindex : ∀ j, i + 1 + j = i + (j + 1) := fun j => by omega
      have hnext := ih (i + 1) (hd'.setRoot cursor hd'') (hgrows.setVar hf)
        ((List.getElem?_set_ne hne.symm).trans hframe)
        (List.getElem?_set_self (List.getElem?_eq_some_iff.mp hcursor).1)
        (Nat.succ.inj hlength)
        (fun j hj => by rw [hindex]; exact hslots (j + 1) (Nat.succ_lt_succ hj)) fun j hj => by
          rw [hindex, List.getElem?_set_ne (hslots (j + 1) (Nat.succ_lt_succ hj)).symm]
          exact hvalues (j + 1) (Nat.succ_lt_succ hj)
      simp only [List.set_set] at hnext
      exact hnext.after htop (by rw [Nat.mul_succ]; omega) fun _ hk => hk

/-- Releasing the slots that an action has taken. -/
theorem released {g : Heap} (hg : g.Represents ground A (slots ++ more)) :
    { g with roots := g.roots.shrink slots.length }.Represents ground A slots := by
  obtain ⟨pos, hd⟩ := hg
  have hreleased := hd.releaseRoots slots.length
  rw [List.take_left] at hreleased
  exact ⟨pos, hreleased⟩

/-- A frame for the parameters, once the surplus arguments are in a list. -/
theorem extendFrame {origin : Heap} {pos₀ : Nat → Nat → Prop} {args : Nat}
    (horigin : Portrays ground A slots pos₀ origin)
    (hd : Portrays ground B (slots ++ [p, formals, u]) pos h) (hgrows : A.Grows B)
    (hle : A.items.length ≤ B.items.length) (hp : B.expect .environment "environment" p = .ok ())
    (hlength : values.length = arity) (hargs : ∀ j < arity, j < fixed → args + j < slots.length)
    (hvalues : ∀ j < arity, values[j]? = if j < fixed then slots[args + j]? else some u) :
    h.Meets large (fieldsSize 2 + fieldsSize 4 * arity)
      ((B.make (.frame (some p) fun _ => none)).2.bindAll B.items.length formals values |>.map
        fun C => (B.items.length, C))
      (Shows ground slots)
      (fun g => { g with roots := g.roots.shrink slots.length }.Represents ground A slots)
      ((do
        let frame ← HeapM.pushRoot (← HeapM.environment (some (← HeapM.root slots.length)))
        HeapM.bindFormals args fixed (slots.length + 1) (slots.length + 2) frame arity 0
        let result ← HeapM.root frame
        HeapM.releaseRoots slots.length
        return result : HeapM Ref) h) := by
  have hback : ∀ {C : Store} {more : List Nat} {g : Heap}, A.Grows C →
      g.Represents ground C (slots ++ more) →
      { g with roots := g.roots.shrink slots.length }.Represents ground A slots := fun hgrows hg =>
    horigin.forgotten hgrows (released hg)
  have hextra : ∀ (more : List Nat) (k : Nat), (slots ++ more)[slots.length + k]? = more[k]? :=
    fun more k => by rw [List.getElem?_append_right (Nat.le_add_right _ _), Nat.add_sub_cancel_left]
  have hset : ∀ (more : List Nat) (x : Nat),
      (slots ++ more).set (slots.length + 1) x = slots ++ more.set 1 x := fun more x => by
    rw [List.set_append_right _ _ (Nat.le_add_right _ _), Nat.add_sub_cancel_left]
  have hparent : pos p (h.root slots.length) := by
    have := hd.slot slots.length
    rwa [← Nat.add_zero slots.length, hextra] at this
  have hmade : h.Meets large _ _ _ _ _ := hd.frame (.some hparent) fun r hr => by
    cases hr
    exact (hd.expect_eq_ok hparent).mp hp
  rw [HeapM.root_bind]
  generalize hrun : HeapM.environment (some (h.root slots.length)) h = result at hmade
  cases hmade with
  | refused hexpected _ => cases hexpected
  | exhausted hfault hgt hg =>
    rw [HeapM.bind_error hrun]
    exact .exhausted hfault (by omega) (hback hgrows hg)
  | @ok _ e g hexpected hg htop =>
    cases hexpected
    obtain ⟨pos', hd', he⟩ := hg
    have hgrows' : A.Grows (B.make (.frame (some p) fun _ => none)).2 :=
      hgrows.make hle fun name heq => nomatch heq
    have hsize : g.roots.size = slots.length + 3 := by
      rw [hd'.length, List.length_append]
      rfl
    have hpushed := hd'.pushRoot he
    rw [List.append_assoc] at hpushed
    have hbind : Heap.Meets _ large _ _ _ _ _ := hpushed.bindFormals args fixed (slots.length + 1)
      (slots.length + 2) (slots.length + 3) 0 hgrows' hle (hextra _ 3) (hextra _ 1) (by omega) hlength ?_ ?_
    · rw [HeapM.bind_ok hrun, HeapM.pushRoot_bind, hsize]
      generalize hrun' : HeapM.bindFormals args fixed (slots.length + 1) (slots.length + 2)
        (slots.length + 3) arity 0 { g with roots := g.roots.push e } = result at hbind
      generalize (B.make (.frame (some p) fun _ => none)).2.bindAll B.items.length formals values =
        expected at hbind ⊢
      simp only [hset] at hbind
      cases hbind with
      | refused hexpected hg =>
        obtain ⟨C, list, hgrows'', hg⟩ := hg
        rw [HeapM.bind_error hrun', hexpected]
        exact .refused rfl (hback hgrows'' hg)
      | exhausted hfault hgt hg =>
        obtain ⟨C, list, hgrows'', hg⟩ := hg
        rw [HeapM.bind_error hrun']
        exact .exhausted hfault (by change _ < g.top + _ at hgt; omega) (hback hgrows'' hg)
      | @ok C _ k hexpected hg htop' =>
        obtain ⟨list, pos'', hd''⟩ := hg
        have hresult := hd''.slot (slots.length + 3)
        rw [hextra] at hresult
        have hreleased := hd''.releaseRoots slots.length
        rw [List.take_left] at hreleased
        rw [HeapM.bind_ok hrun', HeapM.root_bind, HeapM.releaseRoots_bind, hexpected]
        refine .ok rfl ⟨pos'', hreleased, hresult⟩ ?_
        change k.top ≤ _
        change k.top ≤ g.top + _ at htop'
        omega
    · intro j hj
      rw [Nat.zero_add]
      split
      · have := hargs j hj ‹_›
        omega
      · omega
    · intro j hj
      rw [Nat.zero_add, hvalues j hj]
      split
      · exact (List.getElem?_append_left (hargs j hj ‹_›)).symm
      · rw [hextra]
        rfl

/-- The list of the surplus arguments, if they are wanted. -/
theorem surplus (hd : Portrays ground A (slots ++ more) pos h) (rest : Bool) (args fixed : Nat) :
    h.Meets large (fieldsSize 2 * (slots.length - args))
      (.ok (if rest then A.list 0 ((slots.drop args).drop fixed) else (0, A)))
      (Shows ground (slots ++ more)) (·.Represents ground A (slots ++ more))
      ((if rest then HeapM.listOnto (args + fixed) (slots.length - args - fixed) Heap.null
        else pure Heap.null) h) := by
  cases rest with
  | false => exact .ok rfl ⟨pos, hd, hd.null⟩ (Nat.le_add_right _ _)
  | true =>
    have hlist : Heap.Meets _ large _ _ _ _ _ := hd.listOnto hd.null (args + fixed)
      (slots.length - args - fixed) (by rw [List.length_append]; omega)
    have hvalues : ((slots ++ more).drop (args + fixed)).take (slots.length - args - fixed) =
        (slots.drop args).drop fixed := by
      rw [List.drop_drop]
      rcases Nat.le_total (args + fixed) slots.length with hle | hge
      · rw [List.drop_append_of_le_length hle, List.take_append_of_le_length (by simp; omega)]
        exact List.take_of_length_le (by simp; omega)
      · rw [List.drop_of_length_le hge, show slots.length - args - fixed = 0 by omega]
        rfl
    rw [hvalues] at hlist
    exact hlist.after (Nat.le_refl _) (by
      rw [Nat.zero_add]
      exact Nat.mul_le_mul_left _ (Nat.sub_le _ _)) fun _ hk => hk

theorem extend {t : Nat} (hd : Portrays ground A slots pos h) (hp : pos p r) (hf : pos f t)
    (hparent : A.expect .environment "environment" p = .ok ()) (arity : Nat) (rest : Bool)
    (args : Slot) :
    h.Meets large (fieldsSize 2 * (slots.length - args + 1) + fieldsSize 4 * arity)
      (A.extend p f arity rest (slots.drop args)) (Shows ground slots)
      (fun g => { g with roots := g.roots.shrink slots.length }.Represents ground A slots)
      (HeapM.extend r t arity rest args h) := by
  rw [HeapM.extend_run, hd.length]
  cases hfixed : HeapM.fixedParameters arity rest (slots.length - args) with
  | error fault =>
    refine .refused ?_ (released (by rw [List.append_nil]; exact ⟨pos, hd⟩))
    unfold Store.extend
    rw [hparent, List.length_drop, hfixed]
    rfl
  | ok fixed =>
    obtain ⟨hle, harity⟩ := HeapM.fixedParameters_eq_ok hfixed
    rw [← List.length_drop] at hfixed
    have hpushed : Portrays ground A (slots ++ [p, f]) pos
        { h with roots := (h.roots.push r).push t } := by
      have hboth := (hd.pushRoot hp).pushRoot hf
      rwa [List.append_assoc] at hboth
    have hsurplus : Heap.Meets _ large _ _ _ _ _ := hpushed.surplus rest args fixed
    have hgrows : A.Grows (if rest then A.list 0 ((slots.drop args).drop fixed) else (0, A)).2 ∧
        A.items.length ≤
          (if rest then A.list 0 ((slots.drop args).drop fixed) else (0, A)).2.items.length := by
      cases rest with
      | false => exact ⟨.refl A, Nat.le_refl _⟩
      | true => exact A.grows_list _ _
    generalize hmade : (if rest then A.list 0 ((slots.drop args).drop fixed) else (0, A)) = made
      at hsurplus hgrows
    obtain ⟨u, B⟩ := made
    rw [Store.extend_eq hparent hfixed hmade]
    simp only
    generalize hrun : (if rest then HeapM.listOnto (args + fixed) (slots.length - args - fixed)
      Heap.null else pure Heap.null) _ = result at hsurplus
    cases hsurplus with
    | refused hexpected _ => cases hexpected
    | exhausted hfault hgt hg =>
      rw [HeapM.bind_error hrun]
      exact .exhausted hfault (by change _ < h.top + _ at hgt; rw [Nat.mul_succ]; omega) (released hg)
    | @ok _ ru g hexpected hg htop =>
      cases hexpected
      obtain ⟨pos', hd', hu⟩ := hg
      have hpushed' := hd'.pushRoot hu
      rw [List.append_assoc] at hpushed'
      have hsize : g.roots.size = slots.length + 2 := by
        rw [hd'.length, List.length_append]
        rfl
      rw [HeapM.bind_ok hrun, HeapM.pushRoot_bind, hsize]
      refine (extendFrame hd hpushed' hgrows.1 hgrows.2
        ((hgrows.1.expect (hd.lt hp) _ _).trans hparent) ?_ ?_ ?_).after htop
          (by rw [Nat.mul_succ]; omega) fun _ hk => hk
      · exact (parameter_values hle harity u).1
      · intro j _ hj
        omega
      · exact (parameter_values hle harity u).2

end Portrays

/-! Clients. -/

namespace FrameOp

variable {ground : Ground} {c : Client} {pos : Nat → Nat → Prop} {h : Heap}

/-- An action that takes no slots when it fails. -/
theorem released {β : Type} {expected : Except Fault β} {shows : β → α → Heap → Prop}
    (hm : h.Meets large need expected shows (·.Represents ground c.store c.slots) result) :
    h.Meets large need expected shows
      (fun g => { g with roots := g.roots.shrink c.slots.length }.Represents ground c.store c.slots)
      result :=
  hm.after (Nat.le_refl _) (Nat.le_of_eq (Nat.zero_add need)) fun g hg =>
    Portrays.released (by rwa [List.append_nil])

/-- What is got is held in a slot. -/
theorem hold_meets {expected : Except Fault (Nat × Store)} {action : HeapM Ref}
    (hm : h.Meets large need expected (Shows ground c.slots) back (action h)) :
    h.Meets large need (expected >>= fun result => pure (c.hold result))
      (fun d _ g => g.Represents ground d.store d.slots) back (run.hold action h) := by
  unfold run.hold
  generalize hrun : action h = result at hm
  cases hm with
  | ok hexpected hshows htop =>
    obtain ⟨pos, hd, hr⟩ := hshows
    rw [HeapM.bind_ok hrun, hexpected]
    exact .ok rfl ⟨pos, hd.pushRoot hr⟩ htop
  | refused hexpected hg =>
    rw [HeapM.bind_error hrun, hexpected]
    exact .refused rfl hg
  | exhausted hfault hgt hg =>
    rw [HeapM.bind_error hrun]
    exact .exhausted hfault hgt hg

theorem update_meets {expected : Except Fault Store}
    (hm : h.Meets large need expected (fun A _ g => g.Represents ground A c.slots) back result) :
    h.Meets large need (expected >>= fun A => pure { c with store := A })
      (fun d _ g => g.Represents ground d.store d.slots) back result := by
  cases hm with
  | ok hexpected hg htop =>
    rw [hexpected]
    exact .ok rfl hg htop
  | refused hexpected hg =>
    rw [hexpected]
    exact .refused rfl hg
  | exhausted hfault hgt hg => exact .exhausted hfault hgt hg

section

variable (hd : Portrays ground c.store c.slots pos h)
include hd

theorem cons_meets (car cdr : Slot) :
    h.Meets large (fieldsSize 2) (.ok (c.store.make (.pair (c.slot car) (c.slot cdr))))
      (Shows ground c.slots) (·.Represents ground c.store c.slots)
      ((do HeapM.cons (← HeapM.root car) (← HeapM.root cdr) : HeapM Ref) h) := by
  rw [HeapM.root_bind, HeapM.root_bind]
  exact hd.cons (hd.slot car) (hd.slot cdr)

theorem environment_meets (outer : Slot) :
    h.Meets large (fieldsSize 2) (c.store.environment (some (c.slot outer))) (Shows ground c.slots)
      (·.Represents ground c.store c.slots)
      ((do
        let outer ← HeapM.root outer
        HeapM.query (·.expectFrame outer)
        HeapM.environment (some outer) : HeapM Ref) h) := by
  have hslot := hd.slot outer
  rw [HeapM.root_bind, HeapM.query_bind, Heap.expectFrame, ← hd.expect hslot]
  rw [Store.environment, Client.slot]
  cases hframe : c.store.expect .environment "environment" (c.slots[outer]?.getD 0) with
  | error fault => exact .refused rfl ⟨pos, hd⟩
  | ok _ =>
    exact hd.frame (.some hslot) fun r hr => by
      cases hr
      exact (hd.expect_eq_ok hslot).mp hframe

theorem lookup_meets (frame symbol : Slot) :
    h.Meets large 0 (c.store.lookup (c.slot frame) (c.slot symbol) >>= fun v => pure (v, c.store))
      (Shows ground c.slots) (·.Represents ground c.store c.slots)
      ((do
        let frame ← HeapM.root frame
        let symbol ← HeapM.root symbol
        HeapM.query (·.lookup frame symbol) : HeapM Ref) h) := by
  rw [HeapM.root_bind, HeapM.root_bind]
  unfold HeapM.query
  beta_reduce
  rcases hd.lookup (hd.slot frame) (hd.slot symbol) with ⟨v, w, habstract, hconcrete, hv⟩ |
    ⟨fault, habstract, hconcrete⟩
  · rw [Client.slot, Client.slot, habstract, hconcrete]
    exact .ok rfl ⟨pos, hd, hv⟩ (Nat.le_refl _)
  · rw [Client.slot, Client.slot, habstract, hconcrete]
    exact .refused rfl ⟨pos, hd⟩

theorem extend_meets (parent formals : Slot) (arity : Nat) (rest : Bool) (args : Slot) :
    h.Meets large (fieldsSize 2 * (c.slots.length - args + 1) + fieldsSize 4 * arity)
      (c.store.extend (c.slot parent) (c.slot formals) arity rest (c.slots.drop args))
      (Shows ground c.slots)
      (fun g => { g with roots := g.roots.shrink c.slots.length }.Represents ground c.store c.slots)
      ((do
        let parent ← HeapM.root parent
        HeapM.query (·.expectFrame parent)
        HeapM.extend parent (← HeapM.root formals) arity rest args : HeapM Ref) h) := by
  have hslot := hd.slot parent
  rw [HeapM.root_bind, HeapM.query_bind, Heap.expectFrame, ← hd.expect hslot]
  cases hframe : c.store.expect .environment "environment" (c.slots[parent]?.getD 0) with
  | error fault =>
    refine .refused ?_ (Portrays.released (by rw [List.append_nil]; exact ⟨pos, hd⟩))
    unfold Store.extend Client.slot
    rw [hframe]
    rfl
  | ok _ =>
    dsimp only
    rw [HeapM.root_bind]
    exact hd.extend hslot (hd.slot formals) hframe arity rest args

/-- An operation does what it means. -/
theorem meets (digest : List UInt8 → Nat) (op : FrameOp) :
    h.Meets True (op.need c.slots.length) (c.step op) (fun d _ g => g.Represents ground d.store d.slots)
      (fun g => { g with roots := g.roots.shrink c.slots.length }.Represents ground c.store c.slots)
      (op.run digest h) := by
  cases op with
  | null => exact .ok rfl ⟨pos, hd.pushRoot hd.null⟩ (Nat.le_refl _)
  | integer value => exact released (hold_meets (hd.integer value))
  | cons car cdr => exact released (hold_meets (cons_meets hd car cdr))
  | intern name => exact released (hold_meets (hd.intern digest name))
  | environment outer =>
    cases outer with
    | none => exact released (hold_meets (hd.frame .none (fun _ hr => nomatch hr)))
    | some outer => exact released (hold_meets (environment_meets hd outer))
  | define frame symbol value =>
    exact released (update_meets (hd.define (hd.slot frame) (hd.slot symbol) (hd.slot value)))
  | assign frame symbol value =>
    exact released (update_meets (hd.assign (hd.slot frame) (hd.slot symbol) (hd.slot value)))
  | lookup frame symbol =>
    have hlookup : h.Meets True _ _ _ _ _ := hold_meets (lookup_meets hd frame symbol)
    rw [bind_assoc] at hlookup
    exact released hlookup
  | extend parent formals arity rest args =>
    exact hold_meets (extend_meets hd parent formals arity rest args)
  | release count => exact .ok rfl ⟨pos, hd.releaseRoots count⟩ (Nat.le_refl _)
  | collect =>
    obtain ⟨g, place, hrun, hr, -⟩ := HeapM.exists_collected hd.sound.wf
    rw [run, hrun]
    exact .ok rfl ⟨_, hd.relocate hr⟩ hr.top_le

end

end FrameOp

/-! What the operations on a store change. -/

namespace Store

/-- `B` is `A` with another value of the symbol `s` in the frame `f`. -/
structure Rebinds (A : Store) (f s v : Nat) (B : Store) : Prop where
  others : ∀ i, i ≠ f → B.items[i]? = A.items[i]?
  outer : B.outer f = A.outer f
  value : ∀ g t, B.value g t = if g = f ∧ t = s then some v else A.value g t

variable {A B : Store} {f s v : Nat}

theorem rebinds_setVar {outer : Option Nat} {vars : Nat → Option Nat}
    (hframe : A.item f = .frame outer vars) : A.Rebinds f s v (A.setVar f s v) := by
  have hothers : ∀ i, i ≠ f → (A.setVar f s v).items[i]? = A.items[i]? := fun i hi => by
    rw [items_setVar]
    simp only [if_neg (Ne.symm hi), Option.map_id']
  have hitem : (A.setVar f s v).item f =
      .frame outer fun t => if t = s then some v else vars t := by
    have hf : A.items[f]? = some (.frame outer vars) := by
      unfold Store.item at hframe
      cases hitem : A.items[f]? with
      | none => simp [hitem] at hframe
      | some item => simpa [hitem] using hframe
    simp [Store.item, items_setVar, hf, Item.mapVars]
  refine ⟨hothers, by simp only [Store.outer, hitem, hframe], fun g t => ?_⟩
  by_cases hg : g = f
  · subst hg
    simp [Store.value, hitem, hframe]
  · simp only [Store.value, Store.item, hothers g hg, hg, false_and, if_false]

/-- How the search for a variable ends. -/
theorem visible_cases (A : Store) (f s : Nat) :
    (∃ expected received, A.visible f s = .error (.wrongType expected received) ∧
      ¬ ((A.item f).kind = .environment ∧ (A.item s).kind = .symbol)) ∨
    ((A.item f).kind = .environment ∧ (A.item s).kind = .symbol ∧
      ((∃ g, A.visible f s = .ok g ∧ A.nearest f s = some g) ∨
        (A.visible f s = .error (.undefinedVariable (A.name s)) ∧ A.nearest f s = none))) := by
  unfold visible expect
  by_cases hf : (A.item f).kind = .environment
  · by_cases hs : (A.item s).kind = .symbol
    · refine Or.inr ⟨hf, hs, ?_⟩
      rw [if_pos hf, if_pos hs]
      cases hnearest : A.nearest f s with
      | none => exact Or.inr ⟨rfl, rfl⟩
      | some g => exact Or.inl ⟨g, rfl, rfl⟩
    · rw [if_pos hf, if_neg hs]
      exact Or.inl ⟨_, _, rfl, fun h => hs h.2⟩
  · rw [if_neg hf]
    exact Or.inl ⟨_, _, rfl, fun h => hf h.1⟩

theorem value_of_nearest {g : Nat} (h : A.nearest f s = some g) :
    ∃ w, A.value g s = some w := by
  unfold nearest at h
  exact Option.isSome_iff_exists.mp (List.find?_some (p := fun g => (A.value g s).isSome) h)

theorem nearest_eq_none_iff : A.nearest f s = none ↔ ∀ g ∈ A.chain f, A.value g s = none := by
  simp only [nearest, List.find?_eq_none, Bool.not_eq_true, Option.isSome_eq_false_iff,
    Option.isNone_iff_eq_none]

/-- Looking up gives the value in the nearest frame that binds the symbol. -/
theorem lookup_eq_ok_iff : A.lookup f s = .ok v ↔ (A.item f).kind = .environment ∧
    (A.item s).kind = .symbol ∧ ∃ g, A.nearest f s = some g ∧ A.value g s = some v := by
  unfold lookup
  rcases A.visible_cases f s with ⟨_, _, hvisible, hnot⟩ |
    ⟨hf, hs, ⟨g, hvisible, hnearest⟩ | ⟨hvisible, hnearest⟩⟩
  · rw [hvisible]
    exact ⟨(fun h => nomatch h), fun h => absurd ⟨h.1, h.2.1⟩ hnot⟩
  · obtain ⟨w, hw⟩ := value_of_nearest hnearest
    rw [hvisible]
    simp [bind, Except.bind, pure, Except.pure, hf, hs, hnearest, hw]
  · rw [hvisible, hnearest]
    exact ⟨(fun h => nomatch h), fun ⟨_, _, _, h, _⟩ => nomatch h⟩

/-- Looking up finds no value exactly when no frame around binds the symbol. -/
theorem lookup_eq_undefined_iff {name : String} :
    A.lookup f s = .error (.undefinedVariable name) ↔ (A.item f).kind = .environment ∧
      (A.item s).kind = .symbol ∧ A.name s = name ∧ ∀ g ∈ A.chain f, A.value g s = none := by
  unfold lookup
  rw [← nearest_eq_none_iff]
  rcases A.visible_cases f s with ⟨_, _, hvisible, hnot⟩ |
    ⟨hf, hs, ⟨g, hvisible, hnearest⟩ | ⟨hvisible, hnearest⟩⟩
  · rw [hvisible]
    exact ⟨(fun h => nomatch h), fun h => absurd ⟨h.1, h.2.1⟩ hnot⟩
  · rw [hvisible, hnearest]
    exact ⟨(fun h => nomatch h), fun ⟨_, _, _, h⟩ => nomatch h⟩
  · rw [hvisible]
    simp [bind, Except.bind, hf, hs, hnearest]

theorem rebinds_of_assign (hassign : A.assign f s v = .ok B) :
    ∃ g, A.nearest f s = some g ∧ A.Rebinds g s v B := by
  unfold Store.assign at hassign
  rcases A.visible_cases f s with ⟨_, _, hvisible, -⟩ |
    ⟨-, -, ⟨g, hvisible, hnearest⟩ | ⟨hvisible, -⟩⟩
  · rw [hvisible] at hassign
    cases hassign
  · rw [hvisible] at hassign
    cases hassign
    obtain ⟨w, hw⟩ := value_of_nearest hnearest
    obtain ⟨outer, vars, hframe⟩ : ∃ outer vars, A.item g = .frame outer vars := by
      unfold Store.value at hw
      split at hw
      · exact ⟨_, _, by assumption⟩
      · cases hw
    exact ⟨g, hnearest, rebinds_setVar hframe⟩
  · rw [hvisible] at hassign
    cases hassign

end Store

namespace Portrays

variable {ground : Ground} {A B : Store} {slots : List Nat} {pos : Nat → Nat → Prop}
  {h : Heap} {f s v : Nat}

theorem exists_frame (hd : Portrays ground A slots pos h) (hf : (A.item f).kind = .environment) :
    ∃ outer vars, A.item f = .frame outer vars := by
  unfold Store.item at hf ⊢
  cases hitem : A.items[f]? with
  | none => simp [hitem, Item.kind] at hf
  | some item =>
    rw [hitem] at hf
    cases item with
    | frame outer vars => exact ⟨outer, vars, rfl⟩
    | singleton kind => exact absurd hf (hd.closed hitem)
    | _ => cases hf

theorem rebinds_of_define (hd : Portrays ground A slots pos h) (hdefine : A.define f s v = .ok B) :
    A.Rebinds f s v B := by
  obtain ⟨hf, rfl⟩ := Store.define_eq_ok hdefine
  obtain ⟨outer, vars, hframe⟩ := hd.exists_frame hf
  exact Store.rebinds_setVar hframe

end Portrays

/-! Runs of a client. -/

/-- All frames of a client are in order. No place is promised to it. -/
def Client.ground : Ground := ⟨true, fun _ _ => False⟩

theorem Heap.represents_new (size : UInt32) :
    (Heap.new size.toNat).Represents Client.ground Store.new [] := by
  have hs : (Heap.new size.toNat).Sound Rules.bare := .new (Nat.le_of_lt_succ size.toNat_lt) Rules.bare
  have hplain : ∀ p ∈ fixtures, p.2 ≠ Kind.symbol ∧ p.2 ≠ Kind.environment := by decide
  have hitems : ∀ i : Nat, Store.new.items[i]? = fixtures[i]?.map fun p => Item.singleton p.2 :=
    fun i => List.getElem?_map (l := fixtures) (f := fun p => Item.singleton p.2)
  refine ⟨fun i r => ∃ kind, fixtures[i]? = some (r, kind), ⟨hs,
    (Tidy.new _).mono (fun _ => trivial) fun _ _ => trivial, ?_, ?_, ?_, ?_, ?_, .nil, ⟨.null, rfl⟩, ?_,
    ?_⟩, nofun, nofun, ?_⟩
  · intro i item hitem
    rw [hitems, Option.map_eq_some_iff] at hitem
    obtain ⟨p, hp, rfl⟩ := hitem
    exact (hplain p (List.mem_of_getElem? hp)).2
  · rintro i r s ⟨_, hr⟩ ⟨_, hs⟩
    rw [hr] at hs
    cases hs
    rfl
  · rintro i j r ⟨_, hi⟩ ⟨_, hj⟩
    have hinjective : ∀ i < 4, ∀ j < 4, (fixtures[i]?.map Prod.fst) = fixtures[j]?.map Prod.fst →
        i = j := by decide
    exact hinjective i (List.getElem?_eq_some_iff.mp hi).1 j (List.getElem?_eq_some_iff.mp hj).1
      (by rw [hi, hj]; rfl)
  · rintro i r ⟨_, hi⟩
    exact (hs.fixture _ (List.mem_of_getElem? hi)).1
  · rintro i r ⟨kind, hi⟩
    exact ⟨.singleton kind, by rw [hitems, hi]; rfl, .singleton (List.mem_of_getElem? hi)⟩
  · intro r hr hk
    obtain ⟨p, hp, rfl⟩ := mem_records_new hr
    exact absurd ((kind_new size.toNat hp).symm.trans hk) (hplain p hp).1
  · intro i name hitem
    rw [hitems, Option.map_eq_some_iff] at hitem
    obtain ⟨p, -, hp⟩ := hitem
    cases hp
  · intro i c hitem
    rw [hitems, Option.map_eq_some_iff] at hitem
    obtain ⟨p, -, hp⟩ := hitem
    cases hp

/-- The client after an operation. One that has failed leaves it as it was. -/
def Client.next (c : Client) (op : FrameOp) : Except Fault Unit → Client
  | .ok () => match c.step op with
    | .ok d => d
    | .error _ => c
  | .error _ => c

namespace FrameOp

/-- Operations on a new heap, beside what they mean to the client. -/
def history (digest : List UInt8 → Nat) (size : UInt32) (ops : List FrameOp) : Client × Heap :=
  ops.foldl
    (fun s op => (s.1.next op (op.perform digest s.2).1, (op.perform digest s.2).2))
    (.new, .new size.toNat)

variable {c : Client} {h : Heap}

/-- An operation ends as it should, or there is no room for what it makes. -/
def EndsAs (digest : List UInt8 → Nat) (c : Client) (h : Heap) (op : FrameOp) : Prop :=
  (op.perform digest h).1 = (c.step op).map (fun _ => ()) ∨
    ∃ fault, (op.perform digest h).1 = .error fault ∧ fault.isMemory = true ∧
      maxSize < h.top + op.need c.slots.length

theorem perform_spec (hr : h.Represents Client.ground c.store c.slots) (digest : List UInt8 → Nat)
    (op : FrameOp) : op.EndsAs digest c h ∧
      (op.perform digest h).2.Represents Client.ground
        (c.next op (op.perform digest h).1).store (c.next op (op.perform digest h).1).slots := by
  obtain ⟨pos, hd⟩ := hr
  have hm := meets hd digest op
  unfold EndsAs perform
  cases hm' : op.run digest h with
  | ok a g =>
    rw [hm'] at hm
    cases hm with
    | ok hstep hg _ =>
      simp only [Client.next, hstep]
      exact ⟨Or.inl rfl, hg⟩
  | error fault g =>
    rw [hm'] at hm
    simp only [Client.next, hd.length]
    cases hm with
    | refused hstep hback =>
      rw [hstep]
      exact ⟨Or.inl rfl, hback⟩
    | exhausted hfault hgt hback => exact ⟨Or.inr ⟨fault, rfl, hfault.1.isMemory, hgt⟩, hback⟩

theorem history_represents (digest : List UInt8 → Nat) (size : UInt32) (ops : List FrameOp) :
    (history digest size ops).2.Represents Client.ground (history digest size ops).1.store
      (history digest size ops).1.slots := by
  unfold history
  have hstart := Heap.represents_new size
  generalize Heap.new size.toNat = h at *
  rw [show Store.new = Client.new.store from rfl, show [] = Client.new.slots from rfl] at hstart
  generalize Client.new = c at *
  induction ops generalizing c h with
  | nil => exact hstart
  | cons op ops ih => exact ih _ _ (perform_spec hstart digest op).2

end FrameOp

/-- A binding tree has one binding for each symbol. -/
theorem Heap.Scope.nodup_symbols {h : Heap} {bs : List Nat} (hscope : h.Scope f bs) :
    (bs.map fun b => h.memory.field b 0).Nodup := by
  rw [List.Nodup, List.pairwise_map]
  refine hscope.sorted.imp fun hbefore heq => ?_
  rw [heq, keyBefore_irrefl] at hbefore
  cases hbefore

/-- Frames are finite maps and chains of frames are lexical scope. After any operations, with any
digest of names, the heap depicts the store that these lead to, all binding trees are ordered and
have one binding for each symbol, looking up answers as on the store, and the next operation ends as
it does there. -/
theorem frames_are_lexical_scope (digest : List UInt8 → Nat) (size : UInt32)
    (ops : List FrameOp) :
    let c := (FrameOp.history digest size ops).1
    let h := (FrameOp.history digest size ops).2
    (∃ pos, Depicts Client.ground c.store c.slots pos h ∧ ∀ frame symbol : Slot,
      (∃ v r, c.store.lookup (c.slot frame) (c.slot symbol) = .ok v ∧
        h.lookup (h.root frame) (h.root symbol) = .ok r ∧ pos v r) ∨
      ∃ fault, c.store.lookup (c.slot frame) (c.slot symbol) = .error fault ∧
        h.lookup (h.root frame) (h.root symbol) = .error fault) ∧
    (∀ f ∈ h.records, h.memory.kind f = .environment →
      ∃ bs, h.Scope f bs ∧ (bs.map fun b => h.memory.field b 0).Nodup) ∧
    (∀ op : FrameOp, op.EndsAs digest c h) ∧
    (∀ f s v, c.store.lookup f s = .ok v ↔ (c.store.item f).kind = .environment ∧
      (c.store.item s).kind = .symbol ∧
      ∃ g, c.store.nearest f s = some g ∧ c.store.value g s = some v) ∧
    (∀ f s name, c.store.lookup f s = .error (.undefinedVariable name) ↔
      (c.store.item f).kind = .environment ∧ (c.store.item s).kind = .symbol ∧
      c.store.name s = name ∧ ∀ g ∈ c.store.chain f, c.store.value g s = none) ∧
    (∀ f s v A, c.store.define f s v = .ok A → c.store.Rebinds f s v A) ∧
    (∀ f s v A, c.store.assign f s v = .ok A →
      ∃ g, c.store.nearest f s = some g ∧ c.store.Rebinds g s v A) := by
  intro c h
  obtain ⟨pos, hd⟩ := FrameOp.history_represents digest size ops
  refine ⟨⟨pos, hd.toDepicts, fun frame symbol => hd.lookup (hd.slot frame) (hd.slot symbol)⟩,
    fun f hf hk => ?_, fun op => (FrameOp.perform_spec ⟨pos, hd⟩ digest op).1,
    fun f s v => Store.lookup_eq_ok_iff, fun f s name => Store.lookup_eq_undefined_iff,
    fun f s v A => hd.rebinds_of_define, fun f s v A => Store.rebinds_of_assign⟩
  obtain ⟨bs, hscope⟩ := hd.ranged.scope f hf hk (Or.inl rfl)
  exact ⟨bs, hscope, hscope.nodup_symbols⟩

end ArenaScheme
