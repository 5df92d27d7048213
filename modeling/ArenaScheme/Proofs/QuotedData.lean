import ArenaScheme.Proofs.CallPositions
import ArenaScheme.Proofs.RootStack

/-! Which pairs expansion rewrites. The expander writes to the pair that holds a call of a
transformer, and such a pair belongs to a list in call position of the form as it stands at that
time. So a pair lasts as long as it does not come to stand in such a list, and as long as no
transformer changes it. A quoted constant that a transformer returns does come to stand there. -/

namespace ArenaScheme

open Memory Heap HeapM Eval

variable {calls : Calls} {found : FoundCall} {m : Machine} {car cdr fuel rest : Nat} {call r : Ref}

namespace Heap

variable {rules : Rules} {n s a d i j : Nat} {may : Effect → Prop} {h g : Heap}

/-- The pair in one slot leads to the records in two others. -/
def PairAt (h : Heap) (s a d : Nat) : Prop :=
  h.object (h.root s) = .pair (h.root a) (h.root d)

theorem object_eq_pair_iff {r : Nat} :
    h.object r = .pair car cdr ↔
      h.memory.kind r = .pair ∧ h.memory.field r 0 = car ∧ h.memory.field r 1 = cdr := by
  refine ⟨kind_of_pair, fun ⟨hk, hcar, hcdr⟩ => ?_⟩
  unfold object Heap.kind
  rw [hk, ← hcar, ← hcdr]
  rfl

/-- A pair that stands for another one leads to what corresponds. -/
theorem object_of_matches {link : Nat → Nat → Prop} {r r' car' cdr' : Nat}
    (hm : Matches link h.memory r g.memory r') (ho : h.object r = .pair car cdr)
    (hcar : ∀ t, Linked link car t → t = car') (hcdr : ∀ t, Linked link cdr t → t = cdr') :
    g.object r' = .pair car' cdr' := by
  obtain ⟨hk, rfl, rfl⟩ := kind_of_pair ho
  have hfields := pair_references hk
  exact object_eq_pair_iff.mpr ⟨hm.kind.trans hk,
    hcar _ (hm.reference 0 (hfields ▸ List.mem_cons_self)),
    hcdr _ (hm.reference 1 (hfields ▸ List.mem_cons_of_mem _ List.mem_cons_self))⟩

theorem PairAt.of_matches (hp : h.PairAt s a d)
    (hm : Matches Eq h.memory (h.root s) g.memory (h.root s)) (hs : g.root s = h.root s)
    (ha : g.root a = h.root a) (hd : g.root d = h.root d) : g.PairAt s a d := by
  have heq : ∀ r t, Linked Eq r t → t = r := fun r t hl =>
    hl.elim (fun habs => habs.2.trans habs.1.symm) Eq.symm
  unfold PairAt
  rw [hs, ha, hd]
  exact object_of_matches hm hp (heq _) (heq _)

/-- What the first `n` roots of `h` lead to stands in `g` as well, each thing at its `place`, with the
same contents. -/
structure Conveyed (n : Nat) (h g : Heap) (kept : Nat → Prop) (place : Nat → Nat) : Prop where
  root : ∀ i < n, kept (h.root i) ∧ g.root i = place (h.root i)
  injective : ∀ {r s : Nat}, kept r → kept s → place r = place s → r = s
  mem : ∀ {r : Nat}, kept r → r ∈ h.records
  stays : ∀ {r : Nat}, kept r → place r ∈ g.records
  carries : Carries (Goes kept place) h g

theorem Conveyed.trans {k : Heap} {kept kept' : Nat → Prop} {place place' : Nat → Nat}
    (hc : Conveyed n h k kept place) (hc' : Conveyed n k g kept' place') (hk : k.Sound rules) :
    Conveyed n h g (fun r => kept r ∧ kept' (place r)) (place' ∘ place) where
  root i hi := by
    obtain ⟨hkept, hroot⟩ := hc.root i hi
    obtain ⟨hkept', hroot'⟩ := hc'.root i hi
    rw [hroot] at hkept' hroot'
    exact ⟨⟨hkept, hkept'⟩, hroot'⟩
  injective hr hs heq := hc.injective hr.1 hs.1 (hc'.injective hr.2 hs.2 heq)
  mem hr := hc.mem hr.1
  stays hr := hc'.stays hr.2
  carries := by
    refine ⟨?_, ?_⟩
    · rintro r hmem _ ⟨hr, rfl⟩ hdata
      have hm := hc.carries.data r hmem _ ⟨hr.1, rfl⟩ hdata
      have hm' := hc'.carries.data _ (hc'.mem hr.2) _ ⟨hr.2, rfl⟩ (hm.kind ▸ hdata)
      refine (hm.comp hm' ?_ fun _ _ hl => hk.wf.ne_absent (hc'.mem hl.1)).mono ?_
      · rintro _ _ ⟨hl, rfl⟩
        exact hk.wf.ne_absent (hc.stays hl)
      · rintro k - ⟨_, ⟨ha, rfl⟩, hb, hb'⟩
        exact ⟨⟨ha, hb⟩, hb'⟩
    · rintro r hmem _ ⟨hr, rfl⟩ hsymbol
      obtain ⟨hkind, hname⟩ := hc.carries.symbol r hmem _ ⟨hr.1, rfl⟩ hsymbol
      obtain ⟨hkind', hname'⟩ := hc'.carries.symbol _ (hc'.mem hr.2) _ ⟨hr.2, rfl⟩ hkind
      exact ⟨hkind', hname'.trans hname⟩

/-- Records that move are conveyed. -/
theorem Relocation.conveyed {kept : Nat → Prop} {place : Nat → Nat} (hm : h.Relocation kept place g)
    (hn : n ≤ h.roots.size) : Conveyed n h g kept place where
  root i hi := by
    have hlt := Nat.lt_of_lt_of_le hi hn
    exact ⟨hm.root _ (root_mem hlt), hm.root_eq hlt⟩
  injective := hm.injective
  mem hr := hm.mem _ hr
  stays := hm.mem_records
  carries := hm.carries

/-- What stays where it is is conveyed. -/
theorem Carries.conveyed (hsame : Carries Eq h g) (hs : h.Sound rules) (hn : n ≤ h.roots.size)
    (hroot : ∀ i < n, g.root i = h.root i) (hmem : ∀ r ∈ h.records, r ∈ g.records) :
    Conveyed n h g (· ∈ h.records) (fun r => r) where
  root i hi := ⟨hs.wf.root _ (root_mem (Nat.lt_of_lt_of_le hi hn)), hroot i hi⟩
  injective _ _ heq := heq
  mem hr := hr
  stays := hmem _
  carries := by
    refine ⟨?_, ?_⟩
    · rintro r hr s ⟨-, heq⟩ hdata
      obtain rfl : r = s := heq
      have hm := hsame.data r hr r rfl hdata
      refine ⟨hm.kind, hm.pinned, hm.payload, fun k hk => ?_⟩
      rcases hm.reference k hk with habs | heq
      · exact Or.inl habs
      · rcases hs.wf.reference r hr k hk with habs | hmem
        · exact Or.inl ⟨habs, heq.symm.trans habs⟩
        · exact Or.inr ⟨hmem, heq⟩
    · exact fun r hr s hs => hsame.symbol r hr s hs.2

/-- A step that updates nothing conveys what the roots lead to. -/
theorem Change.conveyed (hc : h.Change rules n may g) (hs : h.Sound rules) (ht : h.Indexed)
    (hn : n ≤ h.roots.size) (hmay : ¬ may .update) : ∃ kept place, Conveyed n h g kept place := by
  rcases hc.same hs ht hmay with ⟨kept, place, hmove⟩ | ⟨hroot, hsame⟩
  · exact ⟨kept, place, hmove.conveyed hn⟩
  · rcases hc.lasts hs with ⟨kept, place, hmove⟩ | hlasts
    · exact ⟨kept, place, hmove.conveyed hn⟩
    · exact ⟨_, _, hsame.conveyed hs hn hroot fun r hr => (hlasts r hr).mem⟩

theorem Evolves.conveyed (he : Evolves rules n may h g) (ht : h.Indexed) (hmay : ¬ may .update) :
    ∃ kept place, Conveyed n h g kept place := by
  induction he with
  | @refl h hs hn =>
    have hsame : Carries Eq h h :=
      ⟨fun r _ s heq _ => heq ▸ .of_sameBody (.refl _ _) rfl fun _ _ => Or.inr rfl,
        fun r _ s heq hk => heq ▸ ⟨hk, rfl⟩⟩
    exact ⟨_, _, hsame.conveyed hs hn (fun _ _ => rfl) fun _ hr => hr⟩
  | step hs hn hc he ih =>
    obtain ⟨kept, place, hfirst⟩ := hc.conveyed hs ht hn hmay
    obtain ⟨kept', place', hlast⟩ := ih (hc.indexed hs ht)
    exact ⟨_, _, hfirst.trans hlast he.sound_left⟩

theorem Conveyed.pair {kept : Nat → Prop} {place : Nat → Nat} {r : Nat}
    (hc : Conveyed n h g kept place) (hs : h.Sound rules) (hr : kept r)
    (ho : h.object r = .pair car cdr) :
    kept car ∧ kept cdr ∧ g.object (place r) = .pair (place car) (place cdr) := by
  obtain ⟨hk, rfl, rfl⟩ := kind_of_pair ho
  have hm := hc.carries.data r (hc.mem hr) _ ⟨hr, rfl⟩ (by rw [hk]; rfl)
  have hfield : ∀ k < 2, Goes kept place (h.memory.field r k) (g.memory.field (place r) k) :=
    fun k hlt => by
      refine (hm.reference k ?_).resolve_left fun habs => ?_
      · rw [pair_references hk]
        simp
        omega
      · exact hs.wf.ne_absent (hs.pair_field_mem (hc.mem hr) hk hlt) habs.1
  obtain ⟨hcar, hcar'⟩ := hfield 0 (by decide)
  obtain ⟨hcdr, hcdr'⟩ := hfield 1 (by decide)
  exact ⟨hcar, hcdr, object_eq_pair_iff.mpr ⟨hm.kind.trans hk, hcar'.symm, hcdr'.symm⟩⟩

/-- A pair stays what it is, as long as nothing is updated. -/
theorem Evolves.pairAt (he : Evolves rules n may h g) (ht : h.Indexed) (hmay : ¬ may .update)
    (hs : s < n) (ha : a < n) (hd : d < n) (hp : h.PairAt s a d) : g.PairAt s a d := by
  obtain ⟨kept, place, hc⟩ := he.conveyed ht hmay
  unfold PairAt
  rw [(hc.root s hs).2, (hc.root a ha).2, (hc.root d hd).2]
  exact (hc.pair he.sound_left (hc.root s hs).1 hp).2.2

/-- Slots that hold different records go on to do so. -/
theorem Evolves.root_ne (he : Evolves rules n may h g) (ht : h.Indexed) (hmay : ¬ may .update)
    (hi : i < n) (hj : j < n) (hne : h.root i ≠ h.root j) : g.root i ≠ g.root j := by
  obtain ⟨kept, place, hc⟩ := he.conveyed ht hmay
  rw [(hc.root i hi).2, (hc.root j hj).2]
  exact fun heq => hne (hc.injective (hc.root i hi).1 (hc.root j hj).1 heq)

theorem after_setCar (h : Heap) (q value : Nat) :
    h.after (HeapM.setCar q value) =
      if h.memory.kind q = .pair then { h with memory := h.memory.setField q 0 value } else h := by
  unfold Heap.after HeapM.setCar
  rw [HeapM.query_bind]
  unfold expectKind Heap.kind
  by_cases hk : h.memory.kind q = .pair
  · rw [if_pos hk, if_pos hk]
    rfl
  · rw [if_neg hk, if_neg hk]

theorem roots_setCar (h : Heap) (q value : Nat) :
    (h.after (HeapM.setCar q value)).roots = h.roots := by
  rw [after_setCar]
  split <;> rfl

/-- Writing to another pair keeps the pair. -/
theorem PairAt.setCar {q value : Nat} (hp : h.PairAt s a d) (hsound : h.Sound rules)
    (hs : s < h.roots.size) (hq : q ∈ h.records) (hvalue : value ∈ h.records)
    (hne : h.root s ≠ q) : (h.after (HeapM.setCar q value)).PairAt s a d := by
  rw [after_setCar]
  split
  case isTrue hk =>
    have hset : FieldSet h.records h.memory q 0 value (h.memory.setField q 0 value) :=
      fieldSet_setField hsound.wf.tiled hsound.wf.top_le hq
        (Or.inl (by rw [pair_references hk]; decide))
        (Nat.lt_trans (hsound.wf.lt_top hvalue) hsound.wf.top_lt)
    generalize h.memory.setField q 0 value = m at hset ⊢
    exact hp.of_matches (hset.matches_other (hsound.wf.root _ (root_mem hs)) hne) rfl rfl rfl
  case isFalse => exact hp

end Heap

/-- Replaces one call in the form in a slot. -/
def replaceCall (calls : Calls) (form : Slot) (found : FoundCall) : Eval Unit := do
  let count ← rootCount
  match found.parent with
  | some pair =>
    let slot ← pushRoot pair
    let expansion ← expandCall calls found.call
    setCar (← root slot) expansion
  | none => setRoot form (← expandCall calls found.call)
  releaseRoots count

/-- A round that replaces a call, and then the other rounds. -/
theorem expandIn_of_found {form : Slot} (hfound : m.findCall (m.heap.root form) = some found)
    (rounds : Nat) :
    expandIn calls form (rounds + 1) m =
      (do replaceCall calls form found; expandIn calls form rounds) m := by
  rw [expandIn, Eval.get_bind, hfound]
  obtain ⟨parent, call⟩ := found
  simp only [replaceCall]
  cases parent <;> simp only [bind_assoc]

theorem expandIn_of_settled {form : Slot} (hfound : m.findCall (m.heap.root form) = none)
    (rounds : Nat) : expandIn calls form (rounds + 1) m = .ok () m := by
  rw [expandIn, Eval.get_bind, hfound]
  rfl

/-- The procedures of a session, except that those that overwrite data stop, and so do expansions. -/
def cautious : Procedures := fun calls index args =>
  if Primitive.table[index]?.any (·.overwrites) then outOfFuel
  else runBuiltin (fun calls => Extension.procedures { calls with expand := fun _ => outOfFuel })
    calls index args

theorem alike_cautious {may : Effect → Prop} : cautious.Alike may fun _ => True where
  run {calls} hcalls {m v n args args'} index hm _ hn hargs := by
    unfold cautious
    split
    case isTrue => exact .throw hm hn rfl
    case isFalse hnot =>
      refine .runBuiltin hcalls ⟨fun {calls} hcalls {m v n args args'} index hm _ hn hargs => ?_⟩ hm
        (fun p hp hover => absurd (by simp [hp, hover]) hnot) hn hargs
      have hexpand : ∀ {m v}, Stands may m v →
          Runs v.left.roots.size m v (Returned v) outOfFuel outOfFuel :=
        fun hm => .throw hm (Nat.le_refl _) rfl
      have hstopped : CallsAlike may m { calls with expand := fun _ => outOfFuel } :=
        ⟨(hcalls m).evaluate, (hcalls m).invoke, fun _ hm _ _ => hexpand hm, (hcalls m).builtin⟩
      exact .extensions hstopped hm (fun _ => hexpand hm) hn hargs index

namespace Machine

variable {m k k' : Machine} {n s a d form : Nat} {α β : Type}

/-- The machine with one root more. -/
def pushed (m : Machine) (r : Ref) : Machine :=
  { m with heap.roots := m.heap.roots.push r }

theorem root_pushed (m : Machine) (r : Ref) : (m.pushed r).heap.root m.heap.roots.size = r := by
  simp [pushed, Heap.root]

theorem root_pushed_of_lt {i : Slot} (hi : i < m.heap.roots.size) :
    (m.pushed r).heap.root i = m.heap.root i := by
  simp [pushed, Heap.root, Array.getElem?_push, Nat.ne_of_lt hi]

theorem Intact.pushed (hm : m.Intact) (hr : r ∈ m.heap.records) : (m.pushed r).Intact :=
  hm.become ((Corr.diagonal hm.sound fun _ => True).later_pushRoots (View.diagonal_rel hr)
    (Nat.le_refl _)).evolves rfl

/-- An intact machine with at least `n` roots, among which there are a pair and what it leads to. -/
structure Holding (n s a d : Nat) (m : Machine) : Prop where
  intact : m.Intact
  height : n ≤ m.heap.roots.size
  slots : s < n ∧ a < n ∧ d < n
  pair : m.heap.PairAt s a d

theorem after_bind {x : Eval α} {f : α → Eval β} {post : Machine → Prop} (hx : post (m.after x))
    (hf : ∀ b k, x m = .ok b k → post (k.after (f b))) : post (m.after (x >>= f)) := by
  cases hrun : x m with
  | ok b k =>
    rw [after_bind_of_ok hrun]
    exact hf b k hrun
  | error stop k =>
    rw [after_bind_of_error hrun, ← after_eq_error hrun]
    exact hx

theorem after_onHeap (m : Machine) (x : HeapM α) :
    m.after (onHeap x) = { m with heap := m.heap.after x } := by
  unfold after onHeap Heap.after
  cases x m.heap <;> rfl

namespace Holding

theorem evolve (hm : Holding n s a d m)
    (he : Evolves m.rules n (· ≠ .update) m.heap k.heap) (hsame : k = m.on k.heap k.output) :
    Holding n s a d k := by
  obtain ⟨hs, ha, hd⟩ := hm.slots
  exact ⟨hm.intact.become he hsame, he.size_right, hm.slots,
    he.pairAt hm.intact.indexed (fun h => h rfl) hs ha hd hm.pair⟩

theorem push (hm : Holding n s a d m) (hr : r ∈ m.heap.records) : Holding n s a d (m.pushed r) :=
  hm.evolve ((Corr.diagonal hm.intact.sound _).later_pushRoots (View.diagonal_rel hr)
    hm.height).evolves rfl

theorem setRoot (hm : Holding n s a d m) {slot : Slot} (hr : r ∈ m.heap.records)
    (hslot : n ≤ slot) :
    Holding n s a d (m.after (onHeap (HeapM.setRoot slot r))) :=
  hm.evolve ((Corr.diagonal hm.intact.sound _).later_setRoots (i := slot) (View.diagonal_rel hr)
    (fun h => nomatch h) hm.height hslot).evolves rfl

theorem releaseRoots (hm : Holding n s a d m) {count : Nat} (hcount : n ≤ count) :
    Holding n s a d (m.after (onHeap (HeapM.releaseRoots count))) :=
  hm.evolve (Corr.later_releaseRoots (Corr.diagonal hm.intact.sound _) (fun _ h => nomatch h)
    hm.height hcount).evolves rfl

/-- Writing to another pair. -/
theorem setCar (hm : Holding n s a d m) {q : Ref} (hq : q ∈ m.heap.records)
    (hr : r ∈ m.heap.records) (hne : m.heap.root s ≠ q) :
    Holding n s a d (m.after (onHeap (HeapM.setCar q r))) := by
  have hevolves : Evolves m.rules n (fun _ => True) m.heap (m.heap.after (HeapM.setCar q r)) :=
    (Agrees.setCar (Corr.diagonal hm.intact.sound fun _ => True) hm.height trivial
      (View.diagonal_rel hq) (View.diagonal_rel hr)).evolves
  rw [after_onHeap]
  exact ⟨hm.intact.evolve hevolves, hevolves.size_right, hm.slots,
    hm.pair.setCar hm.intact.sound (Nat.lt_of_lt_of_le hm.slots.1 hm.height) hq hr hne⟩

end Holding

/-- The machine in which the transformer of a call is applied. -/
def applying (m : Machine) (found : FoundCall) : Machine :=
  found.parent.elim m m.pushed

/-- The transformer of a call changes no pair, no vector and no string. -/
def Harmless (m : Machine) (calls : Calls) (found : FoundCall) : Prop :=
  let k := m.applying found
  Evolves k.rules k.heap.roots.size (· ≠ .update) k.heap (k.after (expandCall calls found.call)).heap

/-- The transformer of a call does the same without the procedures that overwrite data: it calls none of
them. -/
def Calm (m : Machine) (fuel : Nat) (found : FoundCall) : Prop :=
  expandCall (interpreterWith cautious fuel) found.call (m.applying found) =
    expandCall (interpreter fuel) found.call (m.applying found)

theorem Calm.harmless (h : m.Calm fuel found)
    (hm : (m.applying found).Intact) (hcall : found.call ∈ (m.applying found).heap.records) :
    m.Harmless (interpreter fuel) found := by
  have hstands : Stands (fun _ => False) (m.applying found)
      (View.diagonal (m.applying found).rules (· ≠ .update) (m.applying found).heap) :=
    hm.standsWith fun effect heffect => by
      rintro rfl
      exact heffect.elim (fun hplain => nomatch hplain) id
  have hruns := Runs.expandCall (callsAlike_interpreterWith alike_cautious fuel (m.applying found))
    hstands (View.diagonal_rel hcall)
  have hevolves := (evolves_of_runs hruns).1
  unfold after at hevolves
  rw [h] at hevolves
  exact hevolves

/-- The machines at the head of each round that the expansion of the form in a slot takes from `m`
on. -/
inductive Round (calls : Calls) (form : Slot) (m : Machine) : Machine → Prop
  | first : Round calls form m m
  | next {k k' : Machine} {found : FoundCall} : Round calls form m k →
    k.findCall (k.heap.root form) = some found → replaceCall calls form found k = .ok () k' →
    Round calls form m k'

/-- The pair in slot `s` belongs to a list in call position of the form, or the transformer of the call
that comes next calls a procedure that overwrites data. -/
def Exposed (fuel : Nat) (s form : Slot) (m : Machine) : Prop :=
  m.Listed (m.heap.root form) (m.heap.root s) ∨
    ∃ found, m.findCall (m.heap.root form) = some found ∧ ¬ m.Calm fuel found

theorem Holding.expandCall (hk : Holding n s a d k) (hcall : call ∈ k.heap.records)
    (he : Evolves k.rules k.heap.roots.size (· ≠ .update) k.heap
      (k.after (expandCall (interpreter fuel) call)).heap) :
    Holding n s a d (k.after (ArenaScheme.expandCall (interpreter fuel) call)) ∧
      ∀ r k', ArenaScheme.expandCall (interpreter fuel) call k = .ok r k' →
        r ∈ k'.heap.records ∧ k'.heap.roots.size = k.heap.roots.size := by
  have hruns := Runs.expandCall (callsAlike_interpreter k fuel) hk.intact.stands
    (View.diagonal_rel hcall)
  refine ⟨hk.evolve (he.mono hk.height) (becomes_of_runs hruns).same, fun r k' hrun => ?_⟩
  obtain ⟨w, b, hw, hcorr, -, hrel, hsize⟩ := post_of_runs hruns hrun
  exact ⟨hw ▸ hcorr.mem_left hrel.1, hw ▸ hsize⟩

/-- What a scan finds are records. -/
theorem Intact.found_mem (hm : m.Intact) (hr : r ∈ m.heap.records)
    (hfound : m.findCall r = some found) :
    found.call ∈ m.heap.records ∧ ∀ pair, found.parent = some pair → pair ∈ m.heap.records := by
  have halike := hm.stands.findCall m.output m.output (View.diagonal_rel hr)
  change Option.Rel _ (m.findCall r) (m.findCall r) at halike
  rw [hfound] at halike
  cases halike with
  | some halike =>
    refine ⟨hm.stands.mem_left halike.call.1, fun pair hpair => ?_⟩
    have hparent := halike.parent
    rw [hpair] at hparent
    cases hparent with
    | some hrel => exact hm.stands.mem_left hrel.1

/-- A call whose transformer calls no procedure that overwrites data changes none. -/
theorem Intact.harmless (hm : m.Intact) (hr : r ∈ m.heap.records)
    (hfound : m.findCall r = some found) (hcalm : m.Calm fuel found) :
    m.Harmless (interpreter fuel) found := by
  obtain ⟨hcall, hparent⟩ := hm.found_mem hr hfound
  obtain ⟨parent, call⟩ := found
  cases parent with
  | none => exact hcalm.harmless hm hcall
  | some pair => exact hcalm.harmless (hm.pushed (hparent pair rfl)) hcall

/-- Replacing a call that another pair holds. -/
theorem Holding.replaceHeld {pair : Ref} (hm : Holding n s a d m) (hpair : pair ∈ m.heap.records)
    (hcall : call ∈ m.heap.records) (hne : m.heap.root s ≠ pair)
    (hharmless : m.Harmless (interpreter fuel) ⟨some pair, call⟩) :
    Holding n s a d (m.after (replaceCall (interpreter fuel) form ⟨some pair, call⟩)) ∧
      ∀ k, replaceCall (interpreter fuel) form ⟨some pair, call⟩ m = .ok () k →
        k.heap.roots.size = m.heap.roots.size := by
  have hpushed := hm.push hpair
  obtain ⟨hnext, hvalue⟩ := hpushed.expandCall hcall hharmless
  have hs := Nat.lt_of_lt_of_le hm.slots.1 hm.height
  have hslot : (m.pushed pair).heap.root m.heap.roots.size = pair := m.root_pushed pair
  have hself : (m.pushed pair).heap.root s = m.heap.root s := root_pushed_of_lt hs
  have hsize : (m.pushed pair).heap.roots.size = m.heap.roots.size + 1 := Array.size_push _
  have hquiet : Evolves (m.pushed pair).rules (m.pushed pair).heap.roots.size (· ≠ .update)
      (m.pushed pair).heap
      ((m.pushed pair).after (ArenaScheme.expandCall (interpreter fuel) call)).heap := hharmless
  have hapart := hquiet.root_ne hpushed.intact.indexed (fun h => h rfl) (i := s) (j := m.heap.roots.size)
    (by omega) (by omega) (by rw [hself, hslot]; exact hne)
  refine ⟨after_bind (m := m.pushed pair) (x := ArenaScheme.expandCall (interpreter fuel) call)
    hnext fun r k hrun => ?_, fun k hrun => ?_⟩
  · obtain ⟨hr, hksize⟩ := hvalue r k hrun
    rw [after_eq_ok hrun] at hnext hapart
    have hwritten := hnext.setCar (q := k.heap.root m.heap.roots.size) (r := r)
      (hnext.intact.sound.wf.root _ (root_mem (by omega))) hr hapart
    refine after_bind (x := onHeap (HeapM.setCar (k.heap.root m.heap.roots.size) r)) hwritten
      fun _ k' hrun' => ?_
    rw [after_eq_ok hrun'] at hwritten
    exact hwritten.releaseRoots hm.height
  · obtain ⟨r, k₁, hrun₁, hrest⟩ := Eval.exists_of_bind (m := m.pushed pair)
      (x := ArenaScheme.expandCall (interpreter fuel) call) hrun
    obtain ⟨_, k₂, hrun₂, hrest⟩ := Eval.exists_of_bind
      (x := onHeap (HeapM.setCar (k₁.heap.root m.heap.roots.size) r)) hrest
    cases hrest
    change (k₂.heap.roots.shrink m.heap.roots.size).size = _
    rw [Array.size_shrink, ← after_eq_ok hrun₂, after_onHeap, roots_setCar, (hvalue r k₁ hrun₁).2,
      hsize]
    exact Nat.min_eq_left (Nat.le_succ _)

/-- Replacing the whole form by its expansion. -/
theorem Holding.replaceWhole (hm : Holding n s a d m) (hform : n ≤ form)
    (hcall : call ∈ m.heap.records) (hharmless : m.Harmless (interpreter fuel) ⟨none, call⟩) :
    Holding n s a d (m.after (replaceCall (interpreter fuel) form ⟨none, call⟩)) ∧
      ∀ k, replaceCall (interpreter fuel) form ⟨none, call⟩ m = .ok () k →
        k.heap.roots.size = m.heap.roots.size := by
  obtain ⟨hnext, hvalue⟩ := hm.expandCall hcall hharmless
  refine ⟨after_bind (x := ArenaScheme.expandCall (interpreter fuel) call) hnext
    fun r k hrun => ?_, fun k hrun => ?_⟩
  · rw [after_eq_ok hrun] at hnext
    obtain ⟨hr, hsize⟩ := hvalue r k hrun
    exact (hnext.setRoot hr hform).releaseRoots (hm.height)
  · obtain ⟨r, k₁, hrun₁, hrest⟩ := Eval.exists_of_bind
      (x := ArenaScheme.expandCall (interpreter fuel) call) hrun
    cases hrest
    change ((k₁.heap.roots.setIfInBounds form r).shrink m.heap.roots.size).size = _
    rw [Array.size_shrink, Array.size_setIfInBounds, (hvalue r k₁ hrun₁).2, Nat.min_self]

/-- A round leaves the pair as it is. -/
theorem Holding.replaceCall (hm : Holding n s a d m) (hform : n ≤ form)
    (hlt : form < m.heap.roots.size) (hspared : ¬ m.Exposed fuel s form)
    (hfound : m.findCall (m.heap.root form) = some found) :
    Holding n s a d (m.after (ArenaScheme.replaceCall (interpreter fuel) form found)) ∧
      ∀ k, ArenaScheme.replaceCall (interpreter fuel) form found m = .ok () k →
        k.heap.roots.size = m.heap.roots.size := by
  have hroot := hm.intact.sound.wf.root _ (root_mem hlt)
  obtain ⟨hcall, hparent⟩ := hm.intact.found_mem hroot hfound
  have hholds := (isCall_of_findCall hfound).holds
  have hcalm : m.Calm fuel found := by_contra fun hnot => hspared (Or.inr ⟨found, hfound, hnot⟩)
  have hharmless := hm.intact.harmless hroot hfound hcalm
  obtain ⟨parent, call⟩ := found
  cases parent with
  | none => exact hm.replaceWhole hform hcall hharmless
  | some pair =>
    refine hm.replaceHeld (hparent pair rfl) hcall (fun heq => hspared (Or.inl ?_)) hharmless
    exact heq ▸ hholds.1

/-- The rounds after the first one. -/
theorem Round.of_next {j : Machine} (hfound : m.findCall (m.heap.root form) = some found)
    (hrun : ArenaScheme.replaceCall calls form found m = .ok () k) (hj : Round calls form k j) :
    Round calls form m j := by
  induction hj with
  | first => exact .next .first hfound hrun
  | next _ hfound' hrun' ih => exact .next ih hfound' hrun'

/-- The rounds of an expansion, however many there are, leave a pair as it is that is spared at the
head of each of them. -/
theorem Holding.expandIn (hm : Holding n s a d m) (hform : n ≤ form)
    (hlt : form < m.heap.roots.size)
    (hspared : ∀ k, Round (interpreter fuel) form m k → ¬ k.Exposed fuel s form) (rounds : Nat) :
    Holding n s a d (m.after (ArenaScheme.expandIn (interpreter fuel) form rounds)) := by
  induction rounds generalizing m with
  | zero => exact hm
  | succ rounds ih =>
    cases hfound : m.findCall (m.heap.root form) with
    | none =>
      rw [after_eq_ok (expandIn_of_settled hfound rounds)]
      exact hm
    | some found =>
      have hround := hm.replaceCall hform hlt (hspared m .first) hfound
      have hafter : m.after (ArenaScheme.expandIn (interpreter fuel) form (rounds + 1)) = m.after
          (do ArenaScheme.replaceCall (interpreter fuel) form found
              ArenaScheme.expandIn (interpreter fuel) form rounds) := by
        unfold after
        rw [expandIn_of_found hfound rounds]
      rw [hafter]
      refine after_bind hround.1 fun _ k hrun => ?_
      have hk := hround.1
      rw [after_eq_ok hrun] at hk
      exact ih hk (by rw [hround.2 k hrun]; exact hlt) fun j hj => hspared j (hj.of_next hfound hrun)

/-- A form that defines nothing is expanded in a slot of its own. -/
theorem after_expand {whole : Ref} (hordinary : ¬ m.Defines m.heap whole) :
    m.after (expand calls whole) = ((m.pushed whole).after
      (ArenaScheme.expandIn calls m.heap.roots.size calls.rounds)).after
        (onHeap (HeapM.releaseRoots m.heap.roots.size)) := by
  unfold expand
  rw [after_keepingRoots]
  refine congrArg (fun k : Machine => k.after (onHeap (HeapM.releaseRoots m.heap.roots.size))) ?_
  change (m.pushed whole).after (if _ = true then _ else _) = _
  rw [if_neg fun hdefines => ?_]
  rotate_left
  · generalize ho : m.heap.object whole = o at hdefines
    cases o with
    | pair head rest => exact hordinary ⟨rest, by rw [ho, beq_iff_eq.mp hdefines]⟩
    | _ => cases hdefines
  cases hrun : ArenaScheme.expandIn calls m.heap.roots.size calls.rounds (m.pushed whole) with
  | ok _ k =>
    rw [after_bind_of_ok hrun, after_eq_ok hrun]
    rfl
  | error stop k => rw [after_bind_of_error hrun, after_eq_error hrun]

end Machine

open Machine

/-- Expansion rewrites the pairs alone that belong to a list in call position of the form at the
head of a round. Any other pair keeps its two fields, whether expansion succeeds or fails, unless a
transformer calls a procedure that overwrites data; among them is a quoted pair as long as no
transformer returns it. -/
theorem unlisted_pairs_kept (fuel : Nat) (m : Machine) (n s a d : Nat) (hm : Holding n s a d m) :
    (∀ form, n ≤ form → form < m.heap.roots.size → ∀ rounds,
      Holding n s a d (m.after (expandIn (interpreter fuel) form rounds)) ∨
        ∃ k, Round (interpreter fuel) form m k ∧ k.Exposed fuel s form) ∧
    ∀ form ∈ m.heap.records, ¬ m.Defines m.heap form →
      Holding n s a d (m.after (expand (interpreter fuel) form)) ∨
        ∃ k, Round (interpreter fuel) m.heap.roots.size (m.pushed form) k ∧
          k.Exposed fuel s m.heap.roots.size := by
  refine ⟨fun form hform hlt rounds => or_iff_not_imp_right.mpr fun hspared =>
    hm.expandIn hform hlt (fun k hk hexposed => hspared ⟨k, hk, hexposed⟩) rounds,
    fun form hform hordinary => or_iff_not_imp_right.mpr fun hspared => ?_⟩
  rw [after_expand hordinary]
  refine ((hm.push hform).expandIn hm.height ?_ (fun k hk hexposed => hspared ⟨k, hk, hexposed⟩)
    _).releaseRoots hm.height
  change _ < (m.heap.roots.push form).size
  rw [Array.size_push]
  exact Nat.lt_succ_self _

/-- A quotation has no pairs in call position but itself. -/
theorem Machine.not_listed_quotation {form q : Nat}
    (hform : m.heap.object form = .pair m.keywords.quote rest) : ¬ m.Listed form q := by
  have hposition : ∀ p, m.CallPosition form p → p = form := fun p hp => by
    induction hp with
    | whole _ => rfl
    | element _ hp hne _ _ _ ih =>
      rw [ih, hform] at hp
      cases hp
      exact absurd rfl hne
  rintro ⟨p, head, tail, hp, ho, hne, -⟩
  rw [hposition p hp, hform] at ho
  cases ho
  exact hne rfl

theorem Machine.findCall_quotation {form : Nat}
    (hform : m.heap.object form = .pair m.keywords.quote rest) : m.findCall form = none := by
  unfold findCall scanForm
  simp [hform]

/-- Keywords with different names are different symbols. -/
theorem Machine.Intact.keyword_ne {p q : Ref × String} (hm : m.Intact) (hp : p ∈ m.keywords.named)
    (hq : q ∈ m.keywords.named) (hne : p.2 ≠ q.2) : p.1 ≠ q.1 := by
  intro heq
  have hnames := (hm.named p hp).2.symm.trans (heq ▸ (hm.named q hq).2)
  have hdecoded := congrArg Text.decode hnames
  rw [Text.decode_toUTF8, Text.decode_toUTF8] at hdecoded
  exact hne hdecoded

/-- A quotation is left alone, and so is all that it leads to. -/
theorem quotations_kept {n s a d : Nat} {form : Ref} (fuel : Nat) (hm : Holding n s a d m)
    (hmem : form ∈ m.heap.records) (hform : m.heap.object form = .pair m.keywords.quote rest) :
    Holding n s a d (m.after (expand (interpreter fuel) form)) := by
  have hordinary : ¬ m.Defines m.heap form := by
    rintro ⟨_, hrest⟩
    exact hm.intact.keyword_ne (p := (_, "quote")) (q := (_, "defmacro")) (by simp [Keywords.named])
      (by simp [Keywords.named]) (by simp) (Object.pair.inj (hform.symm.trans hrest)).1
  refine ((unlisted_pairs_kept fuel m n s a d hm).2 form hmem hordinary).resolve_right ?_
  -- there is one round, which finds no call
  rintro ⟨k, hk, hexposed⟩
  have hquotation : (m.pushed form).heap.object ((m.pushed form).heap.root m.heap.roots.size) =
      .pair m.keywords.quote rest := by
    rw [m.root_pushed]
    exact hform
  obtain rfl : k = m.pushed form := by
    clear hexposed
    induction hk with
    | first => rfl
    | next _ hfound _ ih =>
      rw [ih, findCall_quotation hquotation] at hfound
      cases hfound
  rcases hexposed with hlisted | ⟨found, hfound, -⟩
  · exact not_listed_quotation hquotation hlisted
  · cases (findCall_quotation hquotation).symm.trans hfound

end ArenaScheme
