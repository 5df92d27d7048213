import ArenaScheme.Proofs.Definitional
import ArenaScheme.Proofs.PortraitSteps

/-! A machine beside a world. The heap of the machine portrays the store of the world, and what the
machine remembers is what the world remembers. A computation of the machine mirrors one of the world:
both give results that stand for each other, or both stop for the same reason, unless the machine stops
for want of room. What the slots of the machine hold is known throughout, though the world has none. -/

namespace ArenaScheme

open Memory Heap

/-- Keywords that stand for each other. -/
structure Keywords.Alike (link : Nat → Nat → Prop) (k l : Keywords) : Prop where
  forms : List.Forall₂ (fun p q => link p.1 q.1 ∧ p.2 = q.2) k.forms l.forms
  quote : link k.quote l.quote
  quasiquote : link k.quasiquote l.quasiquote
  unquote : link k.unquote l.unquote
  begin : link k.begin l.begin
  lambda : link k.lambda l.lambda
  defineTransformer : link k.defineTransformer l.defineTransformer
  dot : link k.dot l.dot
  undefined : link k.undefined l.undefined

/-- A machine and the world that it stands for. -/
structure Scene where
  machine : Machine
  world : World
  /-- What the slots of the machine hold. -/
  slots : List Nat
  /-- Where things stand in the heap. -/
  pos : Nat → Nat → Prop

/-- The machine shows what the world is. What it remembers is anchored. -/
structure Scene.Faithful (ground : Ground) (S : Scene) : Prop
    extends Portrays ground S.world.store S.slots S.pos S.machine.heap where
  keywords : S.world.keywords.Alike ground.anchored S.machine.keywords
  globals : ground.anchored S.world.globals S.machine.globals
  truth : ground.anchored Store.truth Heap.truth
  falsity : ground.anchored Store.falsity Heap.falsity
  eof : ground.anchored Store.eof Heap.eof
  globals_kind : (S.world.store.item S.world.globals).kind = .environment
  hosts : S.machine.hostProcedures = #[]
  output : S.machine.output = S.world.output

/-! What lasts. -/

/-- Things of `A` are in `B` too and of the kinds they were. -/
structure Store.Ages (A B : Store) : Prop where
  length : A.items.length ≤ B.items.length
  kind : ∀ i < A.items.length, (B.item i).kind = (A.item i).kind

namespace Store.Ages

variable {A B C : Store} {f s v i : Nat}

theorem refl (A : Store) : A.Ages A := ⟨Nat.le_refl _, fun _ _ => rfl⟩

theorem trans (h : A.Ages B) (h' : B.Ages C) : A.Ages C :=
  ⟨Nat.le_trans h.length h'.length, fun i hi =>
    (h'.kind i (Nat.lt_of_lt_of_le hi h.length)).trans (h.kind i hi)⟩

theorem make (A : Store) (item : Item) : A.Ages (A.make item).2 :=
  ⟨by simp [Store.make], fun _ hi => congrArg Item.kind (item_make hi)⟩

theorem list (A : Store) (tail : Nat) (xs : List Nat) : A.Ages (A.list tail xs).2 := by
  induction xs with
  | nil => exact .refl A
  | cons x xs ih => exact ih.trans (make _ _)

theorem intern (A : Store) (name : String) : A.Ages (A.intern name).2 := by
  unfold Store.intern
  split
  · exact .refl A
  · exact make _ _

theorem setVar (A : Store) (f s v : Nat) : A.Ages (A.setVar f s v) :=
  ⟨by simp [Store.setVar], fun i _ => kind_setVar A f s v i⟩

theorem define (h : A.define f s v = .ok B) : A.Ages B :=
  (define_eq_ok h).2 ▸ setVar A f s v

theorem assign (h : A.assign f s v = .ok B) : A.Ages B := by
  unfold Store.assign at h
  cases hv : A.visible f s with
  | error fault => rw [hv] at h; cases h
  | ok g =>
    rw [hv] at h
    cases h
    exact setVar A g s v

theorem bindAll {values : List Nat} {formals : Nat} (h : A.bindAll f formals values = .ok B) :
    A.Ages B := by
  induction values generalizing A formals with
  | nil => cases h; exact .refl _
  | cons v values ih =>
    rw [Store.bindAll] at h
    cases he : A.expect .pair "pair" formals with
    | error fault => rw [he] at h; cases h
    | ok _ =>
      rw [he] at h
      cases hd : A.define f (A.car formals) v with
      | error fault => simp only [hd, bind, Except.bind] at h; cases h
      | ok C =>
        simp only [hd, bind, Except.bind] at h
        exact (define hd).trans (ih h)

/-- A new frame with parameters leaves the other things as they are. -/
theorem extend {p formals arity : Nat} {rest : Bool} {args : List Nat} {frame : Nat}
    (h : A.extend p formals arity rest args = .ok (frame, B)) :
    A.Ages B ∧ (B.item frame).kind = .environment := by
  unfold Store.extend at h
  cases he : A.expect .environment "environment" p with
  | error fault => rw [he] at h; cases h
  | ok _ =>
    cases hf : HeapM.fixedParameters arity rest args.length with
    | error fault => simp only [he, hf, bind, Except.bind] at h; cases h
    | ok fixed =>
      generalize hmade : (if rest then A.list 0 (args.drop fixed) else (0, A)) = made at h
      have hlist : A.Ages made.2 := by
        rw [← hmade]
        split
        · exact list A 0 _
        · exact .refl A
      have hmake := make made.2 (.frame (some p) fun _ => none)
      have hkind : ((made.2.make (.frame (some p) fun _ => none)).2.item
          made.2.items.length).kind = .environment := by
        simp [Store.make, Store.item, Item.kind]
      simp only [he, hf, hmade, bind, Except.bind] at h
      split at h
      · cases h
      · rename_i D hD
        cases h
        have hD := bindAll hD
        exact ⟨(hlist.trans hmake).trans hD, (hD.kind _ (by simp [Store.make])).trans hkind⟩

theorem replace {item : Item} (hkind : item.kind = (A.item i).kind) : A.Ages (A.replace i item) := by
  refine ⟨by simp [Store.replace], fun j hj => ?_⟩
  unfold Store.replace Store.item
  rw [List.getElem?_set]
  split
  · rename_i hij
    subst hij
    rw [if_pos hj, Option.getD_some, hkind, Store.item]
  · rfl

theorem kind_of_ask {α : Type} {expected : String} {view : Item → Option α} {kind : Kind} {a : α}
    (hview : ∀ item, item.kind ≠ kind → view item = none) (h : A.ask expected view i = .ok a) :
    (A.item i).kind = kind := by
  by_contra hne
  unfold Store.ask at h
  rw [hview _ hne] at h
  cases h

theorem setCar (h : A.setCar i v = .ok B) : A.Ages B := by
  unfold Store.setCar at h
  cases hask : A.cdrOf i with
  | error fault => rw [hask] at h; cases h
  | ok cdr =>
    rw [hask] at h
    cases h
    exact replace (kind_of_ask (fun item hne => by cases item <;> simp_all [Item.kind, Item.cdr?])
      hask).symm

theorem setCdr (h : A.setCdr i v = .ok B) : A.Ages B := by
  unfold Store.setCdr at h
  cases hask : A.carOf i with
  | error fault => rw [hask] at h; cases h
  | ok car =>
    rw [hask] at h
    cases h
    exact replace (kind_of_ask (fun item hne => by cases item <;> simp_all [Item.kind, Item.car?])
      hask).symm

theorem stringSet {index : Int} {c : Char} (h : A.stringSet i index c = .ok B) : A.Ages B := by
  unfold Store.stringSet at h
  cases hask : A.textOf i with
  | error fault => rw [hask] at h; cases h
  | ok text =>
    have hkind : (A.item i).kind = .string :=
      kind_of_ask (fun item hne => by cases item <;> simp_all [Item.kind, Item.text?]) hask
    cases hindex : checkedIndex text.length index with
    | error fault => simp only [hask, hindex, bind, Except.bind] at h; cases h
    | ok k =>
      simp only [hask, hindex, bind, Except.bind] at h
      cases h
      exact replace hkind.symm

theorem vectorSet {index : Int} (h : A.vectorSet i index v = .ok B) : A.Ages B := by
  unfold Store.vectorSet at h
  cases hask : A.elementsOf i with
  | error fault => rw [hask] at h; cases h
  | ok elements =>
    have hkind : (A.item i).kind = .vector :=
      kind_of_ask (fun item hne => by cases item <;> simp_all [Item.kind, Item.elements?]) hask
    cases hindex : checkedIndex elements.length index with
    | error fault => simp only [hask, hindex, bind, Except.bind] at h; cases h
    | ok k =>
      simp only [hask, hindex, bind, Except.bind] at h
      cases h
      exact replace hkind.symm

end Store.Ages

/-- `T` comes after `S`. The first `n` slots hold what they held, and things are of the kinds they
were. -/
structure Since (n : Nat) (S T : Scene) : Prop where
  size : n ≤ T.slots.length
  slots : T.slots.take n = S.slots.take n
  ages : S.world.store.Ages T.world.store

namespace Since

variable {n k : Nat} {S T U : Scene}

theorem refl (hn : n ≤ S.slots.length) : Since n S S := ⟨hn, rfl, .refl _⟩

theorem trans (h : Since n S T) (h' : Since n T U) : Since n S U :=
  ⟨h'.size, h'.slots.trans h.slots, h.ages.trans h'.ages⟩

theorem mono (h : Since n S T) (hk : k ≤ n) : Since k S T := by
  refine ⟨Nat.le_trans hk h.size, ?_, h.ages⟩
  have := congrArg (List.take k) h.slots
  rwa [List.take_take, List.take_take, Nat.min_eq_left hk] at this

end Since

/-- The machine with fewer roots. -/
def Machine.release (m : Machine) (count : Nat) : Machine :=
  { m with heap := { m.heap with roots := m.heap.roots.shrink count } }

namespace Scene

/-- One slot more. -/
def push (S : Scene) (i r : Nat) : Scene :=
  { S with
    machine := { S.machine with
      heap := { S.machine.heap with roots := S.machine.heap.roots.push r } }
    slots := S.slots ++ [i] }

/-- Another thing in a slot. -/
def set (S : Scene) (s i r : Nat) : Scene :=
  { S with
    machine := { S.machine with
      heap := { S.machine.heap with roots := S.machine.heap.roots.setIfInBounds s r } }
    slots := S.slots.set s i }

def release (S : Scene) (count : Nat) : Scene :=
  { S with machine := S.machine.release count, slots := S.slots.take count }

variable {ground : Ground} {S : Scene} {i r n : Nat}

@[simp] theorem length_push : (S.push i r).slots.length = S.slots.length + 1 :=
  List.length_append

namespace Faithful

section

variable (hS : S.Faithful ground)
include hS

/-- The same machine with other roots. -/
theorem withRoots {slots : List Nat} {roots : Array Ref}
    (hp : Portrays ground S.world.store slots S.pos { S.machine.heap with roots }) :
    Scene.Faithful ground { S with
      machine := { S.machine with heap := { S.machine.heap with roots } }
      slots } :=
  ⟨hp, hS.keywords, hS.globals, hS.truth, hS.falsity, hS.eof, hS.globals_kind, hS.hosts, hS.output⟩

theorem push (hi : S.pos i r) : (S.push i r).Faithful ground :=
  hS.withRoots (hS.toPortrays.pushRoot hi)

theorem set (s : Slot) (hi : S.pos i r) :
    (S.set s i r).Faithful ground :=
  hS.withRoots (hS.toPortrays.setRoot s hi)

theorem release (count : Nat) : (S.release count).Faithful ground :=
  hS.withRoots (hS.toPortrays.releaseRoots count)

theorem pos_slot {s : Slot} (hs : S.slots[s]? = some i) :
    S.pos i (S.machine.heap.root s) := by
  have hpos := hS.toDepicts.slot s
  rwa [hs, Option.getD_some] at hpos

theorem pos_boolean (b : Bool) :
    S.pos (Store.boolean b) (Heap.boolean b) := by
  cases b with
  | true => exact hS.stays hS.truth
  | false => exact hS.stays hS.falsity

end

end Faithful

theorem since_push (hn : n ≤ S.slots.length) : Since n S (S.push i r) :=
  ⟨Nat.le_trans hn (by simp [push]), List.take_append_of_le_length hn, .refl _⟩

theorem since_set {s : Nat} (hn : n ≤ S.slots.length) (hs : n ≤ s) : Since n S (S.set s i r) := by
  refine ⟨by simpa [set] using hn, ?_, .refl _⟩
  unfold set
  rw [List.take_set_of_le hs]

theorem since_release {count : Nat} (hn : n ≤ S.slots.length) (hcount : n ≤ count) :
    Since n S (S.release count) := by
  refine ⟨by simp [release]; omega, ?_, .refl _⟩
  simp only [release, List.take_take, Nat.min_eq_left hcount]

end Scene

/-- How a run of the machine ends beside a run of the world. The first `n` slots are kept. When the
machine comes to a result, `ends` says how the world ends. -/
inductive Tracked (ground : Ground) (n : Nat) (S : Scene) {α β : Type}
    (ends : Scene → α → EStateM.Result Stop World β → Prop) :
    EStateM.Result Stop Machine α → EStateM.Result Stop World β → Prop
  | ok {T : Scene} {a : α} {q : EStateM.Result Stop World β} : T.Faithful ground → Since n S T →
    ends T a q → Tracked ground n S ends (.ok a T.machine) q
  | error {T : Scene} {m : Machine} {stop : Stop} : T.Faithful ground → Since n S T →
    T.machine = m.release n → Tracked ground n S ends (.error stop m) (.error stop T.world)
  | exhausted {fault : Fault} {m : Machine} {q : EStateM.Result Stop World β} :
    fault.Exceeds m.heap.top → Tracked ground n S ends (.error (.fault fault) m) q

/-- A computation of the machine keeps to one of the world. -/
def Tracks (ground : Ground) (n : Nat) (S : Scene) {α β : Type}
    (ends : Scene → α → EStateM.Result Stop World β → Prop) (x : Eval α) (y : Act β) : Prop :=
  Tracked ground n S ends (x S.machine) (y S.world)

/-- The world comes to a result that stands for the one of the machine. -/
def Arrives {α β : Type} (post : Scene → α → β → Prop) (T : Scene) (a : α)
    (q : EStateM.Result Stop World β) : Prop :=
  ∃ b, q = .ok b T.world ∧ post T a b

/-- A computation of the machine mirrors one of the world. -/
abbrev Mirrors (ground : Ground) (n : Nat) (S : Scene) {α β : Type}
    (post : Scene → α → β → Prop) (x : Eval α) (y : Act β) : Prop :=
  Tracks ground n S (Arrives post) x y

/-- A reference to a thing, with the slots as they were. -/
def Gives (slots : List Nat) (T : Scene) (r i : Nat) : Prop := T.slots = slots ∧ T.pos i r

theorem Machine.release_release {m : Machine} {n k : Nat} (hk : k ≤ n) :
    (m.release n).release k = m.release k := by
  have hroots : (m.heap.roots.shrink n).shrink k = m.heap.roots.shrink k := by
    apply Array.toList_inj.mp
    simp only [Array.toList_shrink, List.take_take, Nat.min_eq_left hk]
  simp only [Machine.release, hroots]

theorem Tracked.mono {ground : Ground} {n k : Nat} {R S : Scene} {α β : Type}
    {ends weaker : Scene → α → EStateM.Result Stop World β → Prop}
    {p : EStateM.Result Stop Machine α} {q : EStateM.Result Stop World β}
    (h : Tracked ground n S ends p q) (hk : k ≤ n) (hbefore : ∀ T, Since n S T → Since k R T)
    (himp : ∀ T a q, T.Faithful ground → Since n S T → ends T a q → weaker T a q) :
    Tracked ground k R weaker p q := by
  cases h with
  | ok hT hsince hends => exact .ok hT (hbefore _ hsince) (himp _ _ _ hT hsince hends)
  | @error T m stop hT hsince hm =>
    refine .error (T := T.release k) (hT.release k) ?_ ?_
    · exact (hbefore T hsince).trans
        (Scene.since_release (Nat.le_trans hk hsince.size) (Nat.le_refl k))
    · exact (congrArg (Machine.release · k) hm).trans (Machine.release_release hk)
  | exhausted hfault => exact .exhausted hfault

namespace Tracks

variable {ground : Ground} {n k : Nat} {S : Scene} {α β γ δ : Type}
  {ends : Scene → α → EStateM.Result Stop World β → Prop} {x : Eval α} {y : Act β}

theorem mono {weaker : Scene → α → EStateM.Result Stop World β → Prop}
    (h : Tracks ground k S ends x y) (hk : n ≤ k)
    (himp : ∀ T a q, T.Faithful ground → Since k S T → ends T a q → weaker T a q) :
    Tracks ground n S weaker x y :=
  Tracked.mono h hk (fun _ hsince => hsince.mono hk) himp

section

variable (hS : S.Faithful ground) (hn : n ≤ S.slots.length)
include hS hn

protected theorem throw {stop : Stop} :
    Tracks ground n S ends (throw stop) (throw stop) :=
  .error (T := S.release n) (hS.release n) (Scene.since_release hn (Nat.le_refl n)) rfl

theorem fail {fault : Fault} :
    Tracks ground n S ends (Eval.fail fault) (Act.fail fault) :=
  Tracks.throw hS hn

theorem outOfFuel :
    Tracks ground n S ends Eval.outOfFuel Act.outOfFuel :=
  Tracks.throw hS hn

end

protected theorem bind {mid : Scene → α → β → Prop} {last : Scene → γ → EStateM.Result Stop World δ → Prop}
    {f : α → Eval γ} {g : β → Act δ} (h : Mirrors ground k S mid x y) (hk : n ≤ k)
    (hnext : ∀ T a b, T.Faithful ground → Since k S T → mid T a b →
      Tracks ground n T last (f a) (g b)) :
    Tracks ground n S last (x >>= f) (y >>= g) := by
  unfold Mirrors Tracks at h
  unfold Tracks
  change Tracked ground n S last (EStateM.bind x f _) (EStateM.bind y g _)
  unfold EStateM.bind
  generalize x S.machine = p at h ⊢
  generalize y S.world = q at h ⊢
  cases h with
  | ok hT hsince harrives =>
    obtain ⟨b, rfl, hmid⟩ := harrives
    exact Tracked.mono (hnext _ _ _ hT hsince hmid) (Nat.le_refl n)
      (fun _ hsince' => (hsince.mono hk).trans hsince') fun _ _ _ _ _ hlast => hlast
  | @error T m stop hT hsince hm =>
    refine .error (T := T.release n) (hT.release n) ?_ ?_
    · exact (hsince.mono hk).trans
        (Scene.since_release (Nat.le_trans hk hsince.size) (Nat.le_refl n))
    · exact (congrArg (Machine.release · n) hm).trans (Machine.release_release hk)
  | exhausted hfault => exact .exhausted hfault

/-- What the machine does on its own. -/
theorem of_left {T : Scene} {c : γ} {f : γ → Eval α} {first : Eval γ}
    (hfirst : first S.machine = .ok c T.machine) (hworld : T.world = S.world)
    (hsince : Since n S T) (h : Tracks ground n T ends (f c) y) :
    Tracks ground n S ends (first >>= f) y := by
  unfold Tracks at h ⊢
  change Tracked ground n S ends (EStateM.bind first f _) _
  unfold EStateM.bind
  rw [hfirst, ← hworld]
  exact Tracked.mono h (Nat.le_refl n) (fun _ hsince' => hsince.trans hsince')
    fun _ _ _ _ _ hpost => hpost

theorem get_bind {f : Machine → Eval α} {g : World → Act β}
    (h : Tracks ground n S ends (f S.machine) (g S.world)) :
    Tracks ground n S ends (get >>= f) (get >>= g) := h

theorem get_left {f : Machine → Eval α} (h : Tracks ground n S ends (f S.machine) y) :
    Tracks ground n S ends (get >>= f) y := h

theorem ite_iff {p q : Prop} [Decidable p] [Decidable q] {x' : Eval α} {y' : Act β} (hpq : p ↔ q)
    (hpos : p → Tracks ground n S ends x y) (hneg : ¬ p → Tracks ground n S ends x' y') :
    Tracks ground n S ends (if p then x else x') (if q then y else y') := by
  by_cases hp : p
  · rw [if_pos hp, if_pos (hpq.mp hp)]
    exact hpos hp
  · rw [if_neg hp, if_neg fun hq => hp (hpq.mpr hq)]
    exact hneg hp

theorem ite {p : Prop} [Decidable p] {x' : Eval α} {y' : Act β}
    (hpos : p → Tracks ground n S ends x y) (hneg : ¬ p → Tracks ground n S ends x' y') :
    Tracks ground n S ends (if p then x else x') (if p then y else y') :=
  ite_iff Iff.rfl hpos hneg

/-- Roots that a computation leaves are dropped. -/
theorem keepingRoots {x : Eval Ref} {y : Act Nat} (hS : S.Faithful ground)
    (h : Mirrors ground S.slots.length S (fun T r i => T.pos i r) x y) :
    Mirrors ground S.slots.length S (Gives S.slots) (Eval.keepingRoots x) y := by
  have hrun : Eval.keepingRoots x S.machine = match x S.machine with
      | .ok a m => .ok a (m.release S.slots.length)
      | .error stop m => .error stop (m.release S.slots.length) := by
    rw [← hS.length]
    change ((tryFinally x (Eval.onHeap (HeapM.releaseRoots _))) S.machine) = _
    simp only [tryFinally, tryFinally', Functor.map, EStateM.map]
    cases x S.machine <;> rfl
  unfold Mirrors Tracks at h ⊢
  rw [hrun]
  generalize x S.machine = p at h ⊢
  generalize y S.world = q at h ⊢
  cases h with
  | @ok T r _ hT hsince harrives =>
    obtain ⟨i, rfl, hi⟩ := harrives
    have hslots : (T.release S.slots.length).slots = S.slots :=
      hsince.slots.trans List.take_length
    exact .ok (hT.release S.slots.length)
      (hsince.trans (Scene.since_release hsince.size (Nat.le_refl _))) ⟨i, rfl, hslots, hi⟩
  | @error T m stop hT hsince hm =>
    exact .error (T := T) hT hsince (hm.trans (Machine.release_release (Nat.le_refl _)).symm)
  | exhausted hfault => exact .exhausted hfault

/-! Slots. -/

section Slots

variable {i r s : Nat}

theorem root_bind {f : Nat → Eval α} (h : Tracks ground n S ends (f (S.machine.heap.root s)) y) :
    Tracks ground n S ends (Eval.onHeap (HeapM.root s) >>= f) y := h

theorem rootCount_bind {f : Nat → Eval α} (hS : S.Faithful ground)
    (h : Tracks ground n S ends (f S.slots.length) y) :
    Tracks ground n S ends (Eval.onHeap HeapM.rootCount >>= f) y := by
  rw [← hS.length] at h
  exact h

theorem pushRoot_bind {f : Nat → Eval α} (hS : S.Faithful ground) (hn : n ≤ S.slots.length)
    (h : Tracks ground n (S.push i r) ends (f S.slots.length) y) :
    Tracks ground n S ends (Eval.onHeap (HeapM.pushRoot r) >>= f) y := by
  refine of_left (T := S.push i r) ?_ rfl (Scene.since_push hn) h
  rw [← hS.length]
  rfl

theorem setRoot_bind {f : Unit → Eval α} (hn : n ≤ S.slots.length) (hs : n ≤ s)
    (h : Tracks ground n (S.set s i r) ends (f ()) y) :
    Tracks ground n S ends (Eval.onHeap (HeapM.setRoot s r) >>= f) y :=
  of_left (T := S.set s i r) rfl rfl (Scene.since_set hn hs) h

theorem releaseRoots_bind {f : Unit → Eval α} {count : Nat} (hn : n ≤ S.slots.length)
    (hcount : n ≤ count) (h : Tracks ground n (S.release count) ends (f ()) y) :
    Tracks ground n S ends (Eval.onHeap (HeapM.releaseRoots count) >>= f) y :=
  of_left (T := S.release count) rfl rfl (Scene.since_release hn hcount) h

end Slots


end Tracks

namespace Tracks

variable {ground : Ground} {n : Nat} {S : Scene} {α β γ δ : Type}
  {post : Scene → α → β → Prop} {last : Scene → γ → EStateM.Result Stop World δ → Prop}

protected theorem pure {a : α} {b : β} (hS : S.Faithful ground) (hn : n ≤ S.slots.length)
    (h : post S a b) : Mirrors ground n S post (pure a) (pure b) :=
  .ok hS (.refl hn) ⟨b, rfl, h⟩

/-! Questions. -/

theorem query {question : Heap → Except Fault α} {question' : Store → Except Fault β}
    {answer : β → α → Prop} (hS : S.Faithful ground) (hn : n ≤ S.slots.length)
    (h : Answers answer (question' S.world.store) (question S.machine.heap)) :
    Mirrors ground n S (fun T a b => T = S ∧ answer b a) (Eval.onHeap (HeapM.query question))
      (Act.ask question') := by
  unfold Mirrors Tracks Eval.onHeap HeapM.query Act.ask
  generalize question' S.world.store = q at h ⊢
  generalize question S.machine.heap = p at h ⊢
  cases h with
  | ok hanswer => exact .ok hS (.refl hn) ⟨_, rfl, rfl, hanswer⟩
  | error fault _ =>
    exact .error (T := S.release n) (hS.release n) (Scene.since_release hn (Nat.le_refl n)) rfl

theorem query_bind {question : Heap → Except Fault α} {question' : Store → Except Fault β}
    {answer : β → α → Prop} {f : α → Eval γ} {g : β → Act δ} (hS : S.Faithful ground)
    (hn : n ≤ S.slots.length)
    (h : Answers answer (question' S.world.store) (question S.machine.heap))
    (hnext : ∀ a b, answer b a → Tracks ground n S last (f a) (g b)) :
    Tracks ground n S last (Eval.onHeap (HeapM.query question) >>= f)
      (Act.ask question' >>= g) :=
  (query hS hn h).bind (Nat.le_refl n) fun _ a b _ _ ⟨heq, hab⟩ => heq ▸ hnext a b hab

theorem object_bind {i r : Nat} {f : Object → Eval γ} {g : Object → Act δ}
    (hS : S.Faithful ground) (hi : S.pos i r)
    (h : ∀ o o', S.world.store.object i = o → S.machine.heap.object r = o' →
      o.Alike S.pos o' → Tracks ground n S last (f o') (g o)) :
    Tracks ground n S last (Eval.object r >>= f) (Act.object i >>= g) :=
  h _ _ rfl rfl (hS.toDepicts.object hi)

/-! Steps. -/

/-- An operation on the heap that does what it means for the store. -/
theorem of_meets {need : Nat} {operation : HeapM α} {change : Store → Except Fault (β × Store)}
    {shows : β × Store → α → Heap → Prop} {back : Heap → Prop} (hS : S.Faithful ground)
    (hn : n ≤ S.slots.length)
    (hm : S.machine.heap.Meets True need (change S.world.store) shows back (operation S.machine.heap))
    (hshows : ∀ {b B a g}, change S.world.store = .ok (b, B) → shows (b, B) a g →
      ∃ pos, Portrays ground B S.slots pos g ∧
        post { machine := { S.machine with heap := g }, world := { S.world with store := B },
               slots := S.slots, pos } a b)
    (hages : ∀ {b B}, change S.world.store = .ok (b, B) → S.world.store.Ages B)
    (hback : ∀ {g}, back g → { g with roots := g.roots.shrink n }.Represents ground S.world.store
      (S.slots.take n)) :
    Mirrors ground n S post (Eval.onHeap operation) (Act.step change) := by
  unfold Mirrors Tracks Eval.onHeap Act.step
  generalize operation S.machine.heap = result at hm ⊢
  cases hm with
  | @ok b a g hexpected hshown _ =>
    obtain ⟨b, B⟩ := b
    obtain ⟨pos, hp, hpost⟩ := hshows hexpected hshown
    have haged := hages hexpected
    rw [hexpected]
    exact .ok (T := ⟨{ S.machine with heap := g }, { S.world with store := B }, S.slots, pos⟩)
      ⟨hp, hS.keywords, hS.globals, hS.truth, hS.falsity, hS.eof,
        (haged.kind _ (hS.lt (hS.stays hS.globals))).trans hS.globals_kind, hS.hosts, hS.output⟩
      ⟨hn, rfl, haged⟩ ⟨b, rfl, hpost⟩
  | @refused fault g hexpected hg =>
    rw [hexpected]
    obtain ⟨pos, hp⟩ := hback hg
    exact .error
      (T := ⟨Machine.release { S.machine with heap := g } n, S.world, S.slots.take n, pos⟩)
      ⟨hp, hS.keywords, hS.globals, hS.truth, hS.falsity, hS.eof, hS.globals_kind, hS.hosts,
        hS.output⟩
      ⟨by simp [hn], by simp [List.take_take], .refl _⟩ rfl
  | exhausted hfault _ _ => exact .exhausted hfault.1

end Tracks


end ArenaScheme
