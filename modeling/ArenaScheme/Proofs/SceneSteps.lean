import ArenaScheme.Proofs.Scenes

/-! Operations of a machine beside what they mean for its world. -/

namespace ArenaScheme

open Memory Heap

variable {α β : Type} {g h : Heap} {back : Heap → Prop} {operation : HeapM Ref} {slots : List Nat}
  {A : Store}

theorem Heap.Meets.map {γ : Type} {need : Nat} {expected : Except Fault β} {f : β → γ}
    {shows : β → α → Heap → Prop} {shows' : γ → α → Heap → Prop}
    {result : EStateM.Result Fault Heap α} (hm : h.Meets True need expected shows back result)
    (himp : ∀ b a g, shows b a g → shows' (f b) a g) :
    h.Meets True need (expected.map f) shows' back result := by
  cases hm with
  | ok hexpected hshows htop => exact .ok (by rw [hexpected]; rfl) (himp _ _ _ hshows) htop
  | refused hexpected hback => exact .refused (by rw [hexpected]; rfl) hback
  | exhausted hfault hroom hback => exact .exhausted hfault hroom hback

/-- An operation of the heap alone. -/
theorem Eval.onHeap_bind (x : HeapM α) (f : α → HeapM β) :
    Eval.onHeap (x >>= f) = Eval.onHeap x >>= fun a => Eval.onHeap (f a) := by
  funext m
  change Eval.onHeap (EStateM.bind x f) m = EStateM.bind (Eval.onHeap x) _ m
  simp only [Eval.onHeap, EStateM.bind]
  cases x m.heap <;> rfl

/-- A computation that answers hands its answer on. -/
theorem Eval.bind_run {x : Eval α} {f : α → Eval β} {m m' : Machine} {a : α} (h : x m = .ok a m') :
    (x >>= f) m = f a m' := by
  change EStateM.bind x f m = _
  rw [EStateM.bind, h]

theorem Eval.query_run {m : Machine} {a : α} (question : Heap → Except Fault α)
    (h : question m.heap = .ok a) : Eval.onHeap (HeapM.query question) m = .ok a m := by
  simp only [Eval.onHeap, HeapM.query, h]

theorem Eval.keepingRoots_run {x : Eval α} {m m' : Machine} {a : α} (h : x m = .ok a m') :
    Eval.keepingRoots x m =
      .ok a { m' with heap.roots := m'.heap.roots.shrink m.heap.roots.size } := by
  have hcount : Eval.onHeap HeapM.rootCount m = .ok m.heap.roots.size m := rfl
  refine (Eval.bind_run hcount).trans ?_
  simp only [tryFinally, tryFinally', Functor.map, EStateM.map, h]
  rfl

/-- Looking up a variable has the same answer. -/
theorem Portrays.lookup_answers {ground : Ground} {pos : Nat → Nat → Prop}
    {f s e t : Nat} (hd : Portrays ground A slots pos h) (hf : pos f e) (hs : pos s t) :
    Answers pos (A.lookup f s) (h.lookup e t) := by
  rcases hd.lookup hf hs with ⟨v, w, hv, hw, hpos⟩ | ⟨fault, hv, hw⟩
  · rw [hv, hw]
    exact .ok hpos
  · rw [hv, hw]
    refine .error fault ?_
    unfold Store.lookup at hv
    rcases A.visible_cases f s with ⟨expected, received, hvis, _⟩ | ⟨_, _, ⟨g, hvis, _⟩ | ⟨hvis, _⟩⟩ <;>
      rw [hvis] at hv <;> cases hv <;> rfl

namespace Tracks

variable {ground : Ground} {n need : Nat} {S : Scene} {i j f s v r t e w : Nat}
  {item : Item}

/-- The heap with fewer slots, after an action that has failed. -/
theorem back_of_released (hn : n ≤ slots.length)
    (hg : { g with roots := g.roots.shrink slots.length }.Represents ground A slots) :
    { g with roots := g.roots.shrink n }.Represents ground A (slots.take n) := by
  obtain ⟨pos, hp⟩ := hg
  have hreleased := hp.releaseRoots n
  have hroots : (g.roots.shrink slots.length).shrink n = g.roots.shrink n := by
    apply Array.toList_inj.mp
    simp only [Array.toList_shrink, List.take_take, Nat.min_eq_left hn]
  exact ⟨pos, by simpa only [hroots] using hreleased⟩

theorem back_of_represents (hg : g.Represents ground A slots) :
    { g with roots := g.roots.shrink n }.Represents ground A (slots.take n) :=
  hg.imp fun _ hp => hp.releaseRoots n

/-- An operation that gives a thing. -/
theorem step {operation : HeapM Ref} {change : Store → Except Fault (Nat × Store)}
    {back : Heap → Prop} (hS : S.Faithful ground) (hn : n ≤ S.slots.length)
    (hm : S.machine.heap.Meets True need (change S.world.store) (Shows ground S.slots) back
      (operation S.machine.heap))
    (hages : ∀ {b B}, change S.world.store = .ok (b, B) → S.world.store.Ages B)
    (hback : ∀ {g}, back g → { g with roots := g.roots.shrink n }.Represents ground
      S.world.store (S.slots.take n)) :
    Mirrors ground n S
      (fun T r i => Gives S.slots T r i ∧ change S.world.store = .ok (i, T.world.store))
      (Eval.onHeap operation) (Act.step change) :=
  of_meets hS hn hm (fun hchange ⟨pos, hp, hpos⟩ => ⟨pos, hp, ⟨rfl, hpos⟩, hchange⟩) hages hback

theorem gives {change : Store → Except Fault (Nat × Store)} (hS : S.Faithful ground)
    (hn : n ≤ S.slots.length)
    (hm : S.machine.heap.Meets True need (change S.world.store) (Shows ground S.slots) back
      (operation S.machine.heap))
    (hages : ∀ {b B}, change S.world.store = .ok (b, B) → S.world.store.Ages B)
    (hback : ∀ {g}, back g → { g with roots := g.roots.shrink n }.Represents ground
      S.world.store (S.slots.take n)) :
    Mirrors ground n S (Gives S.slots) (Eval.onHeap operation) (Act.step change) :=
  (step hS hn hm hages hback).mono (Nat.le_refl n)
    fun _ _ _ _ _ ⟨b, hq, hgives⟩ => ⟨b, hq, hgives.1⟩

theorem ages_of_pure {B : Store} {p : Nat × Store} {b : Nat} (hp : A.Ages p.2)
    (h : (pure p : Except Fault (Nat × Store)) = .ok (b, B)) : A.Ages B := by
  obtain rfl : p = (b, B) := Except.ok.inj h
  exact hp

section

variable (hS : S.Faithful ground) (hn : n ≤ S.slots.length)
include hS hn

/-- An operation that makes a thing. -/
theorem make (hm : S.machine.heap.Meets True need (.ok (S.world.store.make item)) (Shows ground S.slots)
      (·.Represents ground S.world.store S.slots) (operation S.machine.heap)) :
    Mirrors ground n S (Gives S.slots) (Eval.onHeap operation) (Act.make item) :=
  gives hS hn hm (ages_of_pure (.make _ _)) back_of_represents

/-- An operation that changes the store and gives nothing. -/
theorem update {operation : HeapM Unit} {change : Store → Except Fault Store}
    (hm : S.machine.heap.Meets True need (change S.world.store)
      (fun B _ g => g.Represents ground B S.slots)
      (·.Represents ground S.world.store S.slots) (operation S.machine.heap))
    (hages : ∀ {B}, change S.world.store = .ok B → S.world.store.Ages B) :
    Mirrors ground n S (fun T _ _ => T.slots = S.slots) (Eval.onHeap operation)
      (Act.update change) := by
  have hmap : ∀ A, (do return ((), ← change A) : Except Fault (Unit × Store)) =
      (change A).map fun B => ((), B) := fun A => by cases change A <;> rfl
  have hpair : S.machine.heap.Meets True need ((change S.world.store).map fun B => ((), B))
      (fun p _ g => g.Represents ground p.2 S.slots)
      (·.Represents ground S.world.store S.slots) (operation S.machine.heap) :=
    hm.map fun _ _ _ hg => hg
  unfold Act.update
  simp only [hmap]
  refine of_meets hS hn hpair (fun _ ⟨pos, hp⟩ => ⟨pos, hp, rfl⟩) (fun hchange => hages ?_)
    back_of_represents
  cases hc : change S.world.store with
  | error fault => rw [hc] at hchange; cases hchange
  | ok B => rw [hc] at hchange; cases hchange; rfl

/-- A question whose answer is a thing. -/
theorem query_gives {question : Heap → Except Fault Ref} {question' : Store → Except Fault Nat}
    (h : Answers S.pos (question' S.world.store) (question S.machine.heap)) :
    Mirrors ground n S (Gives S.slots) (Eval.onHeap (HeapM.query question))
      (Act.ask question') :=
  (query hS hn h).mono (Nat.le_refl n)
    fun _ _ _ _ _ ⟨b, hq, heq, hpos⟩ => ⟨b, hq, by rw [heq], by rw [heq]; exact hpos⟩

/-- The value of a form that is evaluated for its effect. -/
theorem undefined :
    Mirrors ground n S (Gives S.slots) Eval.undefined Act.undefined :=
  .pure hS hn ⟨rfl, hS.stays hS.keywords.undefined⟩

end

/-! Constructors. -/

section

variable (hS : S.Faithful ground)
include hS

theorem integer (hn : n ≤ S.slots.length) (value : Int) :
    Mirrors ground n S (Gives S.slots) (Eval.onHeap (HeapM.integer value))
      (Act.integer value) :=
  make hS hn (hS.toPortrays.integer value)

theorem float (hn : n ≤ S.slots.length) (bits : UInt64) :
    Mirrors ground n S (Gives S.slots) (Eval.onHeap (HeapM.float bits))
      (Act.make (.float bits)) :=
  make hS hn (hS.toPortrays.float bits)

theorem character (hn : n ≤ S.slots.length) (c : Char) :
    Mirrors ground n S (Gives S.slots) (Eval.onHeap (HeapM.character c))
      (Act.make (.char c)) :=
  make hS hn (hS.toPortrays.character c)

theorem string (hn : n ≤ S.slots.length) (text : String) :
    Mirrors ground n S (Gives S.slots) (Eval.onHeap (HeapM.string text)) (Act.string text) :=
  make hS hn (hS.toPortrays.string text)

theorem makeString (hn : n ≤ S.slots.length) (length : Nat) (fill : Char) :
    Mirrors ground n S (Gives S.slots) (Eval.onHeap (HeapM.makeString length fill))
      (Act.make (.string (List.replicate length fill))) :=
  make hS hn (hS.toPortrays.makeString length fill)

theorem makeVector (hn : n ≤ S.slots.length) (length : Nat) (hi : S.pos i r) :
    Mirrors ground n S (Gives S.slots) (Eval.onHeap (HeapM.makeVector length r))
      (Act.make (.vector (List.replicate length i))) :=
  make hS hn (hS.toPortrays.makeVector length hi)

theorem cons (hn : n ≤ S.slots.length) (hi : S.pos i r) (hj : S.pos j t) :
    Mirrors ground n S (Gives S.slots) (Eval.onHeap (HeapM.cons r t))
      (Act.make (.pair i j)) :=
  make hS hn (hS.toPortrays.cons hi hj)

theorem tagged (hn : n ≤ S.slots.length) (hi : S.pos i r) (hj : S.pos j t) :
    Mirrors ground n S (Gives S.slots) (Eval.onHeap (HeapM.tagged r t))
      (Act.make (.tagged i j)) :=
  make hS hn (hS.toPortrays.tagged hi hj)

theorem closure {c d : Closure} (hn : n ≤ S.slots.length) (hc : c.Alike S.pos d)
    (henv : (S.world.store.item c.env).kind = .environment) (harity : c.arity < 4294967296) :
    Mirrors ground n S (Gives S.slots)
      (Eval.onHeap (HeapM.closure d.name d.formals d.env d.body d.arity d.rest))
      (Act.make (.closure c)) :=
  make hS hn (hS.toPortrays.closure hc henv harity)

theorem intern (hn : n ≤ S.slots.length) (name : String) :
    Mirrors ground n S (Gives S.slots) (Eval.onHeap (HeapM.intern name)) (Act.intern name) :=
  gives hS hn (hS.toPortrays.intern Text.digest name)
    (ages_of_pure (.intern _ _)) back_of_represents

/-- The list of the slots from `base` on, which are then given back. -/
theorem listFromRoots {base : Nat} (hn : n ≤ base) (hbase : base ≤ S.slots.length)
    (hi : S.pos i r) :
    Mirrors ground n S
      (fun T r j => Gives (S.slots.take base) T r j)
      (Eval.onHeap (HeapM.listFromRoots base r))
      (Act.step fun A => return A.list i (S.slots.drop base)) := by
  unfold HeapM.listFromRoots
  simp only [Eval.onHeap_bind]
  refine Tracks.rootCount_bind hS ?_
  have hlist : S.machine.heap.Meets True _ _ _ _ _ :=
    hS.toPortrays.listOnto hi base (S.slots.length - base) (Nat.le_refl _)
  rw [List.take_of_length_le (by simp)] at hlist
  have hgives : Mirrors ground base S (Gives S.slots)
      (Eval.onHeap (HeapM.listOnto base (S.slots.length - base) r))
      (Act.step fun A => return A.list i (S.slots.drop base)) :=
    gives hS hbase hlist (ages_of_pure (.list _ _ _)) back_of_represents
  rw [← bind_pure (Act.step _)]
  refine hgives.bind hn fun T a b hT hsince ⟨hslots, hpos⟩ => ?_
  refine Tracks.releaseRoots_bind (hslots ▸ Nat.le_trans hn hbase) hn ?_
  exact Tracks.pure (hT.release base) (by simp [Scene.release, hslots]; omega)
    ⟨congrArg (List.take base) hslots, hpos⟩

end

/-! Updates. -/

section

variable (hS : S.Faithful ground) (hn : n ≤ S.slots.length)
include hS hn

theorem setCar (hi : S.pos i r) (hj : S.pos j t) :
    Mirrors ground n S (fun T _ _ => T.slots = S.slots) (Eval.onHeap (HeapM.setCar r t))
      (Act.update (·.setCar i j)) :=
  update hS hn (hS.toPortrays.setCar hi hj) .setCar

theorem setCdr (hi : S.pos i r) (hj : S.pos j t) :
    Mirrors ground n S (fun T _ _ => T.slots = S.slots) (Eval.onHeap (HeapM.setCdr r t))
      (Act.update (·.setCdr i j)) :=
  update hS hn (hS.toPortrays.setCdr hi hj) .setCdr

theorem stringSet (hi : S.pos i r) (index : Int) (c : Char) :
    Mirrors ground n S (fun T _ _ => T.slots = S.slots)
      (Eval.onHeap (HeapM.stringSet r index c)) (Act.update (·.stringSet i index c)) :=
  update hS hn (hS.toPortrays.stringSet hi index c) .stringSet

theorem vectorSet (hi : S.pos i r) (index : Int) (hj : S.pos j t) :
    Mirrors ground n S (fun T _ _ => T.slots = S.slots)
      (Eval.onHeap (HeapM.vectorSet r index t)) (Act.update (·.vectorSet i index j)) :=
  update hS hn (hS.toPortrays.vectorSet hi index hj) .vectorSet

theorem define (hf : S.pos f e) (hs : S.pos s t) (hv : S.pos v w) :
    Mirrors ground n S (fun T _ _ => T.slots = S.slots) (Eval.onHeap (HeapM.define e t w))
      (Act.update (·.define f s v)) :=
  update hS hn (hS.toPortrays.define hf hs hv) .define

theorem assign (hf : S.pos f e) (hs : S.pos s t) (hv : S.pos v w) :
    Mirrors ground n S (fun T _ _ => T.slots = S.slots) (Eval.onHeap (HeapM.assign e t w))
      (Act.update (·.assign f s v)) :=
  update hS hn (hS.toPortrays.assign hf hs hv) .assign

end

/-! Frames. -/

theorem lookup (hS : S.Faithful ground) (hn : n ≤ S.slots.length) (hf : S.pos f e)
    (hs : S.pos s t) :
    Mirrors ground n S (Gives S.slots) (Eval.onHeap (HeapM.query (·.lookup e t)))
      (Act.ask (·.lookup f s)) :=
  query_gives hS hn (hS.toPortrays.lookup_answers hf hs)

/-- A new frame for the arguments in the slots from `args` on. -/
theorem extend {arity : Nat} {rest : Bool} {args : Nat} (hS : S.Faithful ground)
    (hn : n ≤ S.slots.length) (hf : S.pos f e) (hs : S.pos s t)
    (hkind : (S.world.store.item f).kind = .environment) :
    Mirrors ground n S
      (fun T r i => Gives S.slots T r i ∧
        S.world.store.extend f s arity rest (S.slots.drop args) = .ok (i, T.world.store))
      (Eval.onHeap (HeapM.extend e t arity rest args))
      (Act.step (·.extend f s arity rest (S.slots.drop args))) :=
  Tracks.mono (step hS hn (hS.toPortrays.extend hf hs (if_pos hkind) arity rest args)
    (fun heq => (Store.Ages.extend heq).1) (back_of_released hn)) (Nat.le_refl n)
    fun _ _ _ _ _ harrives => harrives

end Tracks

end ArenaScheme
