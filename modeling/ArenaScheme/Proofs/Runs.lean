import ArenaScheme.Primitive.Table
import ArenaScheme.Proofs.Assignment
import ArenaScheme.Proofs.Fences
import ArenaScheme.Proofs.Interning

/-! Two machines that differ in their heaps only. From corresponding heaps both runs of a
computation give corresponding results and the same output, or stop for the same reason; either way
the heaps they leave correspond. What a machine remembers is pinned, so that both remember the
same. -/

namespace ArenaScheme

open Memory Heap

variable {may : Effect → Prop} {kind : Kind} {r : Nat} {guard : Option Nat} {p : Prop} {v w : View}

/-- The symbols that a machine remembers. -/
def Keywords.symbols (k : Keywords) : List Ref :=
  k.forms.map Prod.fst ++ [k.quote, k.quasiquote, k.unquote, k.begin, k.lambda,
    k.defineTransformer, k.dot, k.undefined]

/-- The symbols that a machine remembers, with their names. -/
def Keywords.named (k : Keywords) : List (Ref × String) :=
  k.forms.map (fun form => (form.1, form.2.name)) ++ [(k.quote, "quote"),
    (k.quasiquote, "quasiquote"), (k.unquote, "unquote"), (k.begin, "begin"), (k.lambda, "lambda"),
    (k.defineTransformer, "defmacro"), (k.dot, "."), (k.undefined, "undefined")]

/-- The machine with another heap and other output. -/
abbrev Machine.on (m : Machine) (h : Heap) (out : String) : Machine :=
  { m with heap := h, output := out }

/-- A pinned record of the given kind. -/
def Heap.Permanent (h : Heap) (kind : Kind) (r : Nat) : Prop :=
  r ∈ h.records ∧ h.memory.isPinned r = true ∧ h.memory.kind r = kind

/-- A pinned symbol with the given name. -/
def Heap.Named (h : Heap) (r : Nat) (name : String) : Prop :=
  h.Permanent .symbol r ∧ h.nameBytes r = name.toUTF8.toList

section

variable {n : Nat} {rules : Rules} {h g : Heap} {m : Machine}

theorem Heap.Evolves.permanent (he : Evolves rules n may h g) (hr : h.Permanent kind r) :
    g.Permanent kind r := by
  have hlasts := he.pinned hr.1 hr.2.1
  exact ⟨hlasts.mem, hlasts.pinned.trans hr.2.1, hlasts.kind.trans hr.2.2⟩

theorem Later.permanent (h : Later n v w) (hr : v.left.Permanent kind r) :
    w.left.Permanent kind r :=
  h.evolves.permanent hr

theorem Heap.Evolves.named {name : String} (he : Evolves rules n may h g) (ht : h.Indexed)
    (hr : h.Named r name) : g.Named r name :=
  ⟨he.permanent hr.1, (he.nameBytes_pinned ht hr.1.1 hr.1.2.1 hr.1.2.2).trans hr.2⟩

/-- All symbols are in their table, those that the machine remembers have their names, and there is
a fence around the names of transformers. -/
structure Machine.Orderly (m : Machine) (h : Heap) : Prop where
  indexed : h.Indexed
  named : ∀ p ∈ m.keywords.named, h.Named p.1 p.2
  fenced : ∃ own, h.Fenced m.transformers own

theorem Machine.Orderly.evolve (ho : m.Orderly h) (he : Evolves rules n may h g)
    (hrules : ∀ t, rules.table = some t → t = m.transformers)
    (ht : h.Permanent .environment m.transformers) : m.Orderly g :=
  ⟨he.indexed ho.indexed, fun p hp => he.named ho.indexed (ho.named p hp),
    he.fenced ho.indexed hrules ht.1 ht.2.1 ho.fenced⟩

end

theorem Rooted.permanent (h : Rooted v w) (hr : v.left.Permanent kind r) :
    w.left.Permanent kind r := by
  unfold Heap.Permanent
  rw [h.left]
  exact hr

theorem Corr.rel_permanent (hv : Corr v) (hr : v.left.Permanent kind r) (hk : kind ≠ .pair) :
    v.Rel r r :=
  hv.rel_pinned hr.1 hr.2.1 (hr.2.2.symm ▸ hk)

/-- What a program does: it adds no procedures but the primitives. -/
def Effect.Tame : Effect → Prop
  | procedure index => index < Primitive.table.size
  | _ => True

/-- What every program does. -/
def Effect.Plain : Effect → Prop
  | intern _ | bind => True
  | _ => False

theorem Effect.Plain.tame {effect : Effect} (h : effect.Plain) : effect.Tame := by
  cases effect with
  | procedure => exact h.elim
  | _ => trivial

/-- Where the names of transformers may be any records. -/
abbrev View.Loose (v : View) : Prop := v.rules.table ≠ none

/-- The heaps of `v` correspond and hold what the machine remembers. The machine may do what every
program does, and what `may` says. Procedures of a host can have a name changed while it is being
given to a transformer; where there are some, only the frame of the transformers is sure to stay, and
it may bind any record. -/
structure Stands (may : Effect → Prop) (m : Machine) (v : View) : Prop extends Corr v where
  ordered : v.Ordered
  closures : v.rules.closures = true
  loose : ∀ t, v.rules.table = some t → t = m.transformers ∧ v.guard = none
  closed : v.rules.table = none → m.hostProcedures = #[]
  may : ∀ effect, effect.Plain ∨ may effect → v.may effect
  globals : v.left.Permanent .environment m.globals
  transformers : v.left.Permanent .environment m.transformers
  keywords : ∀ r ∈ m.keywords.symbols, v.left.Permanent .symbol r
  orderly : v.Loose → m.Orderly v.left

namespace Stands

variable {m : Machine} {v w : View} {n r : Nat}

theorem later (hm : Stands may m v) (hw : Corr w) (h : Later n v w) : Stands may m w :=
  ⟨hw, h.ordered hm.ordered, h.rules ▸ hm.closures, by rw [h.rules, h.guard]; exact hm.loose,
    h.rules ▸ hm.closed, h.may ▸ hm.may, h.permanent hm.globals, h.permanent hm.transformers,
    fun r hr => h.permanent (hm.keywords r hr), fun hloose =>
      (hm.orderly fun hnone => hloose (h.rules ▸ hnone)).evolve h.evolves
        (fun t ht => (hm.loose t ht).1) hm.transformers⟩

/-- A frame other than the one of the transformers binds symbols that are not reserved. -/
theorem table_eq_none (hm : Stands may m v) (h : v.rules.table ≠ some m.transformers) :
    v.rules.table = none := by
  cases htable : v.rules.table with
  | none => rfl
  | some t => exact absurd (htable.trans (by rw [(hm.loose t htable).1])) h

theorem rel_globals (hm : Stands may m v) : v.Rel m.globals m.globals :=
  hm.rel_permanent hm.globals (by decide)

theorem rel_transformers (hm : Stands may m v) : v.Rel m.transformers m.transformers :=
  hm.rel_permanent hm.transformers (by decide)

theorem rel_keyword (hm : Stands may m v) (hr : r ∈ m.keywords.symbols) : v.Rel r r :=
  hm.rel_permanent (hm.keywords r hr) (by decide)

end Stands

def Stop.isCorrupt : Stop → Bool
  | fault cause => cause.isCorrupt
  | outOfFuel => false

/-- How two runs from the heaps of `v` end. The first `n` slots keep the kinds of their values. -/
inductive Ends (n : Nat) (m : Machine) (v : View) {α β : Type} (post : View → α → β → Prop) :
    EStateM.Result Stop Machine α → EStateM.Result Stop Machine β → Prop
  | ok (w : View) (out : String) {a : α} {b : β} : Corr w → Later n v w → post w a b →
    Ends n m v post (.ok a (m.on w.left out)) (.ok b (m.on w.right out))
  | error (w : View) (out : String) (stop : Stop) : Corr w → Later n v w → stop.isCorrupt = false →
    Ends n m v post (.error stop (m.on w.left out)) (.error stop (m.on w.right out))

def Runs (n : Nat) (m : Machine) (v : View) {α β : Type} (post : View → α → β → Prop) (x : Eval α)
    (y : Eval β) : Prop :=
  ∀ out, Ends n m v post (x (m.on v.left out)) (y (m.on v.right out))

/-- Corresponding values, and as many roots as there were. -/
def Returned (v w : View) (a b : Nat) : Prop :=
  w.Rel a b ∧ w.left.roots.size = v.left.roots.size

/-- Every slot from `k` on is out of guard. -/
def View.Clear (v : View) (k : Nat) : Prop := ∀ s, v.guard = some s → s < k

namespace View.Clear

variable {v w : View} {n k i : Nat}

theorem ne (h : v.Clear k) (hi : k ≤ i) : v.guard ≠ some i := fun hs =>
  absurd (h i hs) (Nat.not_lt_of_le hi)

theorem mono (h : v.Clear k) (hi : k ≤ i) : v.Clear i := fun s hs =>
  Nat.lt_of_lt_of_le (h s hs) hi

theorem later (h : v.Clear k) (hlater : Later n v w) : w.Clear k := fun s hs =>
  h s (hlater.guard.symm.trans hs)

end View.Clear

theorem Rooted.clear {k : Nat} (h : Rooted v w) (hk : v.Clear k) : w.Clear k :=
  fun s hs => hk s (h.guard.symm.trans hs)

theorem Corr.clear (hv : Corr v) : v.Clear v.left.roots.size := fun s hs =>
  (hv.guarded s hs).lt

/-- The view with another slot under guard, or with none. -/
def View.withGuard (v : View) (guard : Option Nat) : View := { v with guard }

theorem View.Ordered.withGuard (ho : v.Ordered) (guard : Option Nat) :
    (v.withGuard guard).Ordered :=
  ⟨ho.aligned.imp id fun hs => ⟨hs.same, hs.eq⟩, ho.pinned⟩

theorem View.rel_withGuard {a b : Nat} (hfree : v.guard = none) (h : (v.withGuard guard).Rel a b) :
    v.Rel a b :=
  ⟨h.1, fun s hs => by rw [hfree] at hs; cases hs⟩

theorem Stands.withGuard {m : Machine} (hm : Stands may m v) (htable : v.rules.table = none)
    (hg : ∀ s, guard = some s → Guarded v.left s) : Stands may m (v.withGuard guard) :=
  ⟨⟨hm.left, hm.right, hm.iso, hg⟩, .of_none htable, hm.closures,
    fun _ ht => absurd (htable.symm.trans ht) (fun h => nomatch h), hm.closed, hm.may, hm.globals,
    hm.transformers, hm.keywords, fun hloose => absurd htable hloose⟩

namespace Runs

variable {n k : Nat} {m : Machine} {v : View} {α β γ δ : Type} {post : View → α → β → Prop}
  {x : Eval α} {y : Eval β}

theorem mono {weaker : View → α → β → Prop} (hm : Stands may m v) (h : Runs n m v post x y) (hk : k ≤ n)
    (himp : ∀ w a b, Stands may m w → Later n v w → post w a b → weaker w a b) :
    Runs k m v weaker x y := by
  intro out
  have hrun := h out
  generalize x (m.on v.left out) = p at hrun ⊢
  generalize y (m.on v.right out) = q at hrun ⊢
  cases hrun with
  | ok w out hw hlater hpost =>
    exact .ok w out hw (hlater.mono hk) (himp w _ _ (hm.later hw hlater) hlater hpost)
  | error w out stop hw hlater hstop => exact .error w out stop hw (hlater.mono hk) hstop

theorem pure {a : α} {b : β} (hm : Stands may m v) (hn : n ≤ v.left.roots.size) (h : post v a b) :
    Runs n m v post (pure a) (pure b) :=
  fun out => .ok v out hm.toCorr (.refl hm.toCorr hn) h

theorem throw {stop : Stop} (hm : Stands may m v) (hn : n ≤ v.left.roots.size)
    (hstop : stop.isCorrupt = false) : Runs n m v post (throw stop) (throw stop) :=
  fun out => .error v out stop hm.toCorr (.refl hm.toCorr hn) hstop

theorem bind {mid : View → α → β → Prop} {last : View → γ → δ → Prop} {f : α → Eval γ}
    {g : β → Eval δ} (hm : Stands may m v) (h : Runs n m v mid x y)
    (hnext : ∀ w a b, Stands may m w → Later n v w → mid w a b → Runs n m w last (f a) (g b)) :
    Runs n m v last (x >>= f) (y >>= g) := by
  intro out
  have hrun := h out
  change Ends n m v last (EStateM.bind x f _) (EStateM.bind y g _)
  unfold EStateM.bind
  generalize x (m.on v.left out) = p at hrun ⊢
  generalize y (m.on v.right out) = q at hrun ⊢
  cases hrun with
  | ok w out hw hlater hmid =>
    have hrest := hnext w _ _ (hm.later hw hlater) hlater hmid out
    simp only
    generalize f _ (m.on w.left out) = p at hrest ⊢
    generalize g _ (m.on w.right out) = q at hrest ⊢
    cases hrest with
    | ok u out hu hlater' hpost => exact .ok u out hu (hlater.trans hlater') hpost
    | error u out stop hu hlater' hstop => exact .error u out stop hu (hlater.trans hlater') hstop
  | error w out stop hw hlater hstop => exact .error w out stop hw hlater hstop

/-- A step that keeps more slots than have to be kept. -/
theorem bind_of_le {mid : View → α → β → Prop} {last : View → γ → δ → Prop} {f : α → Eval γ}
    {g : β → Eval δ} (hm : Stands may m v) (hk : n ≤ k) (h : Runs k m v mid x y)
    (hnext : ∀ w a b, Stands may m w → Later k v w → mid w a b → Runs n m w last (f a) (g b)) :
    Runs n m v last (x >>= f) (y >>= g) := by
  have hboth : Runs n m v (fun w a b => Later k v w ∧ mid w a b) x y :=
    h.mono hm hk fun _ _ _ _ hlater hmid => ⟨hlater, hmid⟩
  exact hboth.bind hm fun w a b hw _ ⟨hlater, hmid⟩ => hnext w a b hw hlater hmid

theorem ite_iff {q : Prop} [Decidable p] [Decidable q] {x' : Eval α} {y' : Eval β} (hpq : p ↔ q)
    (hpos : p → Runs n m v post x y) (hneg : ¬ p → Runs n m v post x' y') :
    Runs n m v post (if p then x else x') (if q then y else y') := by
  by_cases hp : p
  · rw [if_pos hp, if_pos (hpq.mp hp)]
    exact hpos hp
  · rw [if_neg hp, if_neg fun hq => hp (hpq.mpr hq)]
    exact hneg hp

theorem ite [Decidable p] {x' : Eval α} {y' : Eval β} (hpos : p → Runs n m v post x y)
    (hneg : ¬ p → Runs n m v post x' y') :
    Runs n m v post (if p then x else x') (if p then y else y') :=
  ite_iff Iff.rfl hpos hneg

theorem onHeap {first : HeapM α} {second : HeapM β} (h : Agrees n v post first second) :
    Runs n m v post (Eval.onHeap first) (Eval.onHeap second) := by
  intro out
  unfold Agrees at h
  unfold Eval.onHeap
  simp only
  generalize first v.left = p at h ⊢
  generalize second v.right = q at h ⊢
  cases h with
  | ok w hw hlater hpost => exact .ok w out hw hlater hpost
  | error w fault hw hlater hfault => exact .error w out (.fault fault) hw hlater hfault

/-- Looking at the machine changes nothing. -/
theorem get_bind {last : View → γ → δ → Prop} {f : Machine → Eval γ} {g : Machine → Eval δ}
    (h : ∀ out, Runs n m v last (f (m.on v.left out)) (g (m.on v.right out))) :
    Runs n m v last (get >>= f) (get >>= g) :=
  fun out => h out out

/-- What is done after a step of the heap that leads from one view to another. -/
theorem of_step {c : γ} {d : δ} {last : View → α → β → Prop} {first : HeapM γ} {second : HeapM δ}
    {f : γ → Eval α} {g : δ → Eval β} (hlater : Later n v w) (hfirst : first v.left = .ok c w.left)
    (hsecond : second v.right = .ok d w.right) (h : Runs n m w last (f c) (g d)) :
    Runs n m v last (Eval.onHeap first >>= f) (Eval.onHeap second >>= g) := by
  intro out
  have hrun := h out
  change Ends n m v last (EStateM.bind (Eval.onHeap first) f _)
    (EStateM.bind (Eval.onHeap second) g _)
  simp only [EStateM.bind, Eval.onHeap, hfirst, hsecond]
  change Ends n m v last (f c (m.on w.left out)) (g d (m.on w.right out))
  generalize f c (m.on w.left out) = p at hrun ⊢
  generalize g d (m.on w.right out) = q at hrun ⊢
  cases hrun with
  | ok u out hu hlater' hpost => exact .ok u out hu (hlater.trans hlater') hpost
  | error u out stop hu hlater' hstop => exact .error u out stop hu (hlater.trans hlater') hstop

section Bind

variable {last : View → γ → δ → Prop} {a b i : Nat}

section

variable (hm : Stands may m v)
include hm

theorem onHeap_bind {first : HeapM α} {second : HeapM β} {f : α → Eval γ} {g : β → Eval δ}
    (h : Agrees n v post first second)
    (hnext : ∀ w a b, Stands may m w → Later n v w → post w a b → Runs n m w last (f a) (g b)) :
    Runs n m v last (Eval.onHeap first >>= f) (Eval.onHeap second >>= g) :=
  (onHeap h).bind hm hnext

theorem query_bind {question : Heap → Except Fault α} {question' : Heap → Except Fault β}
    {answer : α → β → Prop} {f : α → Eval γ} {g : β → Eval δ} (hn : n ≤ v.left.roots.size)
    (h : Answers answer (question v.left) (question' v.right))
    (hnext : ∀ a b, answer a b → Runs n m v last (f a) (g b)) :
    Runs n m v last (Eval.onHeap (HeapM.query question) >>= f)
      (Eval.onHeap (HeapM.query question') >>= g) :=
  onHeap_bind hm (Agrees.query hm.toCorr hn h) fun _ a b _ _ ⟨heq, hab⟩ => heq ▸ hnext a b hab

theorem object_bind {f : Object → Eval γ} {g : Object → Eval δ} (hab : v.Rel a b)
    (h : ∀ o o', v.left.object a = o → Object.Alike v.Rel o o' → Runs n m v last (f o) (g o')) :
    Runs n m v last (Eval.object a >>= f) (Eval.object b >>= g) :=
  fun out => h _ _ rfl (hm.object hab) out

theorem rootCount_bind {f : Nat → Eval γ} {g : Nat → Eval δ} (hn : n ≤ v.left.roots.size)
    (h : Runs n m v last (f v.left.roots.size) (g v.left.roots.size)) :
    Runs n m v last (Eval.onHeap HeapM.rootCount >>= f) (Eval.onHeap HeapM.rootCount >>= g) :=
  of_step (.refl hm.toCorr hn) rfl (by rw [hm.iso.size]; rfl) h

theorem root_bind {f : Nat → Eval γ} {g : Nat → Eval δ} (hi : v.guard ≠ some i)
    (h : v.Rel (v.left.root i) (v.right.root i) →
      Runs n m v last (f (v.left.root i)) (g (v.right.root i))) :
    Runs n m v last (Eval.onHeap (HeapM.root i) >>= f) (Eval.onHeap (HeapM.root i) >>= g) :=
  h (hm.rel_root hi)

theorem root (hn : n ≤ v.left.roots.size) (hi : v.guard ≠ some i) :
    Runs n m v View.Rel (Eval.onHeap (HeapM.root i)) (Eval.onHeap (HeapM.root i)) :=
  fun out => .ok v out hm.toCorr (.refl hm.toCorr hn) (hm.rel_root hi)

theorem pushRoot_bind {f : Nat → Eval γ} {g : Nat → Eval δ} (hn : n ≤ v.left.roots.size)
    (hab : v.Rel a b) (h : ∀ w, Stands may m w → RootPushed v a w →
      Runs n m w last (f v.left.roots.size) (g v.left.roots.size)) :
    Runs n m v last (Eval.onHeap (HeapM.pushRoot a) >>= f)
      (Eval.onHeap (HeapM.pushRoot b) >>= g) := by
  have hlater := hm.later_pushRoots hab hn
  have hw := hm.rootPushed hab
  exact of_step hlater rfl (by rw [hm.iso.size]; rfl) (h _ (hm.later hw.corr hlater) hw)

theorem setRoot_bind {f : Unit → Eval γ} {g : Unit → Eval δ} (hn : n ≤ v.left.roots.size)
    (hni : n ≤ i) (hi : v.guard ≠ some i) (hab : v.Rel a b)
    (h : ∀ w, Stands may m w → RootSet v i a w → Runs n m w last (f ()) (g ())) :
    Runs n m v last (Eval.onHeap (HeapM.setRoot i a) >>= f)
      (Eval.onHeap (HeapM.setRoot i b) >>= g) := by
  have hlater := hm.later_setRoots hab hi hn hni
  have hw := hm.rootSet hab hi
  exact of_step hlater rfl rfl (h _ (hm.later hw.corr hlater) hw)

theorem releaseRoots_bind {f : Unit → Eval γ} {g : Unit → Eval δ} {count : Nat}
    (hn : n ≤ v.left.roots.size) (hcount : n ≤ count) (hg : v.Clear count)
    (h : ∀ w, Stands may m w → RootsReleased v count w → Runs n m w last (f ()) (g ())) :
    Runs n m v last (Eval.onHeap (HeapM.releaseRoots count) >>= f)
      (Eval.onHeap (HeapM.releaseRoots count) >>= g) := by
  have hlater := hm.later_releaseRoots hg hn hcount
  have hw := hm.rootsReleased hg
  exact of_step hlater rfl rfl (h _ (hm.later hw.corr hlater) hw)

end

end Bind

/-- What is noted changes nothing else. -/
theorem trace_bind {last : View → γ → δ → Prop} {f : Unit → Eval γ} {g : Unit → Eval δ}
    {event event' : Heap → Event} (hm : Stands may m v) (hn : n ≤ v.left.roots.size)
    (hsame : v.Single → event = event')
    (h : ∀ w, Stands may m w → Updated v w → Runs n m w last (f ()) (g ())) :
    Runs n m v last (Eval.trace event >>= f) (Eval.trace event' >>= g) := by
  unfold Eval.trace
  simp only [bind_assoc]
  refine get_bind fun out => ?_
  cases htracing : m.tracing with
  | false =>
    simp only [Bool.false_eq_true, if_false]
    exact h v hm ⟨fun _ _ h => h, fun _ _ => rfl, rfl⟩
  | true =>
    simp only [if_true, bind_assoc]
    refine get_bind fun out => onHeap_bind hm (Agrees.note hm.toCorr hn fun hs => ?_)
      fun w _ _ hw _ hupdated => h w hw hupdated
    rw [hsame hs, hs.same]

/-- The roots that a computation leaves are dropped. -/
theorem keepingRoots {x y : Eval Ref} (hm : Stands may m v)
    (h : Runs v.left.roots.size m v View.Rel x y) :
    Runs v.left.roots.size m v (Returned v) (Eval.keepingRoots x) (Eval.keepingRoots y) := by
  refine rootCount_bind hm (Nat.le_refl _) fun out => ?_
  have hrun := h out
  simp only [tryFinally, tryFinally', Functor.map, EStateM.map]
  generalize x (m.on v.left out) = p at hrun ⊢
  generalize y (m.on v.right out) = q at hrun ⊢
  have hafter : ∀ w, Corr w → Later v.left.roots.size v w →
      RootsReleased w v.left.roots.size (w.releaseRoots v.left.roots.size) ∧
        Later v.left.roots.size v (w.releaseRoots v.left.roots.size) := fun w hw hlater =>
    ⟨hw.rootsReleased (hm.clear.later hlater),
      hlater.trans (hw.later_releaseRoots (hm.clear.later hlater) hlater.size (Nat.le_refl _))⟩
  cases hrun with
  | ok w out hw hlater hrel =>
    obtain ⟨hu, hlater'⟩ := hafter w hw hlater
    exact .ok _ out hu.corr hlater'
      ⟨hu.rel _ _ hrel, hu.size.trans (Nat.min_eq_left hlater.size)⟩
  | error w out stop hw hlater hstop =>
    obtain ⟨hu, hlater'⟩ := hafter w hw hlater
    exact .error _ out stop hu.corr hlater' hstop

/-- What a computation cannot reach it does not change. -/
theorem underGuard {s : Nat} (hfree : v.guard = none)
    (h : Runs n m (v.withGuard (some s)) post x y) :
    Runs n m v (fun w a b => w.guard = none ∧ Guarded w.left s ∧ post (w.withGuard (some s)) a b)
      x y := by
  intro out
  have hrun : Ends n m (v.withGuard (some s)) post (x (m.on v.left out)) (y (m.on v.right out)) :=
    h out
  generalize x (m.on v.left out) = p at hrun ⊢
  generalize y (m.on v.right out) = q at hrun ⊢
  have hafter : ∀ w, Corr w → Later n (v.withGuard (some s)) w →
      Corr (w.withGuard none) ∧ Later n v (w.withGuard none) := fun w hw hlater =>
    ⟨⟨hw.left, hw.right, hw.iso, fun s hs => by cases hs⟩,
      ⟨⟨hlater.rules, hfree.symm, hlater.may⟩, hlater.evolves,
        fun ho => (hlater.ordered (ho.withGuard _)).withGuard _⟩⟩
  cases hrun with
  | ok w out hw hlater hpost =>
    obtain ⟨hu, hlater'⟩ := hafter w hw hlater
    have heq : (w.withGuard none).withGuard (some s) = w := by
      have hguard : w.guard = some s := hlater.guard
      unfold View.withGuard
      rw [← hguard]
    refine .ok (w.withGuard none) out hu hlater' ⟨rfl, hw.guarded s hlater.guard, ?_⟩
    rw [heq]
    exact hpost
  | error w out stop hw hlater hstop =>
    obtain ⟨hu, hlater'⟩ := hafter w hw hlater
    exact .error (w.withGuard none) out stop hu hlater' hstop

end Runs


end ArenaScheme
