import ArenaScheme.Proofs.Collection.Isomorphism

/-! Search trees of records. A tree is given by the field `child x k` of each of its nodes, where the
fields `l` and `r` lead to the subtrees. It stands for the list of its nodes from left to right. A
walk that goes left or right at each node ends where a new node belongs. -/

namespace ArenaScheme

open Memory Heap

/-- The tree at `x` has the given nodes. -/
inductive Tree (child : Nat → Nat → Nat) (l r : Nat) : (x : Nat) → List Nat → Prop
  | empty : Tree child l r absent []
  | node {x : Nat} {as bs : List Nat} : x ≠ absent → Tree child l r (child x l) as →
    Tree child l r (child x r) bs → Tree child l r x (as ++ x :: bs)

namespace Tree

variable {child child' : Nat → Nat → Nat} {l r x y : Nat} {as bs : List Nat}

theorem eq_nil (h : Tree child l r absent as) : as = [] := by
  generalize hx : absent = x at h
  cases h with
  | empty => rfl
  | node hne => exact absurd hx.symm hne

theorem unique (h : Tree child l r x as) (g : Tree child l r x bs) : as = bs := by
  induction h generalizing bs with
  | empty => exact g.eq_nil.symm
  | node hne _ _ ihl ihr =>
    cases g with
    | empty => exact absurd rfl hne
    | node _ gl gr => rw [ihl gl, ihr gr]

theorem leaf (hx : x ≠ absent) (hl : child x l = absent) (hr : child x r = absent) :
    Tree child l r x [x] := by
  have hleft : Tree child l r (child x l) [] := hl ▸ .empty
  have hright : Tree child l r (child x r) [] := hr ▸ .empty
  exact .node hx hleft hright

theorem root_mem (h : Tree child l r x as) (hx : x ≠ absent) : x ∈ as := by
  cases h with
  | empty => exact absurd rfl hx
  | node _ _ _ => exact List.mem_append_right _ (.head _)

/-- What is below a node is a node. -/
theorem child_mem {k : Nat} (h : Tree child l r x as) (hy : y ∈ as) (hk : k = l ∨ k = r)
    (hne : child y k ≠ absent) : child y k ∈ as := by
  induction h with
  | empty => cases hy
  | node _ hl hr ihl ihr =>
    rcases List.mem_append.mp hy with hy | hy
    · exact List.mem_append_left _ (ihl hy)
    rcases List.mem_cons.mp hy with rfl | hy
    · rcases hk with rfl | rfl
      · exact List.mem_append_left _ (hl.root_mem hne)
      · exact List.mem_append_right _ (.tail _ (hr.root_mem hne))
    · exact List.mem_append_right _ (.tail _ (ihr hy))

/-- What holds of the first node and goes on from each node to those below it holds of all. -/
theorem forall_mem {p : Nat → Prop} (h : Tree child l r x as) (hx : x ≠ absent → p x)
    (hstep : ∀ y k, p y → k = l ∨ k = r → child y k ≠ absent → p (child y k)) :
    ∀ y ∈ as, p y := by
  induction h with
  | empty => exact List.forall_mem_nil _
  | node hne _ _ ihl ihr =>
    have hself := hx hne
    rw [List.forall_mem_append, List.forall_mem_cons]
    exact ⟨ihl (hstep _ l hself (Or.inl rfl)), hself, ihr (hstep _ r hself (Or.inr rfl))⟩

/-- Only the subtree fields of the nodes matter. -/
theorem congr (h : Tree child l r x as)
    (hsame : ∀ y ∈ as, child' y l = child y l ∧ child' y r = child y r) :
    Tree child' l r x as := by
  induction h with
  | empty => exact .empty
  | @node x as bs hne _ _ ihl ihr =>
    obtain ⟨hl, hr⟩ := hsame x (List.mem_append_right _ (.head _))
    refine .node hne ?_ ?_
    · rw [hl]
      exact ihl fun y hy => hsame y (List.mem_append_left _ hy)
    · rw [hr]
      exact ihr fun y hy => hsame y (List.mem_append_right _ (.tail _ hy))

/-- Nodes that move take their tree along. -/
theorem relocate {kept : Nat → Prop} {place : Nat → Nat} (h : Tree child l r x as)
    (hx : Linked (Goes kept place) x y) (hout : ¬ kept absent)
    (hplace : ∀ z, kept z → place z ≠ absent)
    (hfields : ∀ z ∈ as, kept z → ∀ k, k = l ∨ k = r →
      Linked (Goes kept place) (child z k) (child' (place z) k)) :
    Tree child' l r y (as.map place) ∧ ∀ z ∈ as, kept z := by
  induction h generalizing y with
  | empty =>
    rcases hx with ⟨-, rfl⟩ | hgoes
    · exact ⟨.empty, fun z hz => nomatch hz⟩
    · exact absurd hgoes.1 hout
  | @node x as bs hne _ _ ihl ihr =>
    rcases hx with ⟨habs, -⟩ | ⟨hkept, rfl⟩
    · exact absurd habs hne
    have hself := hfields x (List.mem_append_right _ (.head _)) hkept
    obtain ⟨hl, hkeptl⟩ := ihl (hself l (Or.inl rfl)) fun z hz =>
      hfields z (List.mem_append_left _ hz)
    obtain ⟨hr, hkeptr⟩ := ihr (hself r (Or.inr rfl)) fun z hz =>
      hfields z (List.mem_append_right _ (.tail _ hz))
    refine ⟨?_, fun z hz => ?_⟩
    · rw [List.map_append, List.map_cons]
      exact .node (hplace x hkept) hl hr
    · rcases List.mem_append.mp hz with hz | hz
      · exact hkeptl z hz
      · rcases List.mem_cons.mp hz with rfl | hz
        · exact hkept
        · exact hkeptr z hz

/-- The node that is sought, on a walk that goes left where `before` says so. -/
def search (child : Nat → Nat → Nat) (l r : Nat) (sought before : Nat → Bool) :
    (fuel x : Nat) → Option Nat
  | 0, _ => none
  | fuel + 1, x =>
    if x = absent then none
    else if sought x then some x
    else search child l r sought before fuel (child x (if before x then l else r))

/-- A walk that turns left behind the node that is sought and right before it finds it. -/
theorem search_eq_some_iff {sought before : Nat → Bool} {fuel : Nat} (h : Tree child l r x as)
    (hfuel : as.length ≤ fuel)
    (horder : as.Pairwise fun a b => (sought a = true → sought b = false ∧ before b = true) ∧
      (sought b = true → sought a = false ∧ before a = false)) :
    search child l r sought before fuel x = some y ↔ y ∈ as ∧ sought y = true := by
  induction h generalizing fuel with
  | empty =>
    have hnone : search child l r sought before fuel absent = none := by
      cases fuel with
      | zero => rfl
      | succ fuel => rw [search, if_pos rfl]
    rw [hnone]
    exact ⟨(fun heq => nomatch heq), fun hmem => nomatch hmem.1⟩
  | @node x as bs hne hl hr ihl ihr =>
    obtain ⟨horderl, horderr, hacross⟩ := List.pairwise_append.mp horder
    rw [List.pairwise_cons] at horderr
    rw [List.length_append, List.length_cons] at hfuel
    obtain ⟨fuel, rfl⟩ : ∃ f, fuel = f + 1 := ⟨fuel - 1, by omega⟩
    rw [search, if_neg hne, List.mem_append, List.mem_cons]
    by_cases hx : sought x = true
    · rw [if_pos hx, Option.some_inj]
      refine ⟨fun heq => ⟨Or.inr (Or.inl heq.symm), heq ▸ hx⟩, fun ⟨hmem, hy⟩ => ?_⟩
      rcases hmem with hmem | rfl | hmem
      · exact absurd hy (Bool.eq_false_iff.mp ((hacross y hmem x (.head _)).2 hx).1)
      · rfl
      · exact absurd hy (Bool.eq_false_iff.mp ((horderr.1 y hmem).1 hx).1)
    · rw [if_neg hx]
      by_cases hbefore : before x = true
      · rw [if_pos hbefore, ihl (by omega) horderl]
        refine ⟨fun ⟨hmem, hy⟩ => ⟨Or.inl hmem, hy⟩, fun ⟨hmem, hy⟩ => ⟨?_, hy⟩⟩
        rcases hmem with hmem | rfl | hmem
        · exact hmem
        · exact absurd hy hx
        · exact absurd hbefore (Bool.eq_false_iff.mp ((horderr.1 y hmem).2 hy).2)
      · rw [if_neg hbefore, ihr (by omega) horderr.2]
        refine ⟨fun ⟨hmem, hy⟩ => ⟨Or.inr (Or.inr hmem), hy⟩, fun ⟨hmem, hy⟩ => ⟨?_, hy⟩⟩
        rcases hmem with hmem | rfl | hmem
        · exact absurd ((hacross y hmem x (.head _)).1 hy).2 hbefore
        · exact absurd hy hx
        · exact hmem

end Tree

theorem mem_inserted {as bs : List Nat} {x y : Nat} :
    y ∈ as ++ x :: bs ↔ y ∈ as ++ bs ∨ y = x := by
  rw [List.perm_middle.mem_iff, List.mem_cons, or_comm]

theorem pairwise_inserted {before : Nat → Nat → Prop} {as bs : List Nat} {x : Nat}
    (h : (as ++ bs).Pairwise before) (ha : ∀ a ∈ as, before a x) (hb : ∀ b ∈ bs, before x b) :
    (as ++ x :: bs).Pairwise before := by
  obtain ⟨hfirst, hsecond, hacross⟩ := List.pairwise_append.mp h
  refine List.pairwise_append.mpr ⟨hfirst, List.pairwise_cons.mpr ⟨hb, hsecond⟩, ?_⟩
  intro a hmem b hmem'
  rcases List.mem_cons.mp hmem' with rfl | hmem'
  · exact ha a hmem
  · exact hacross a hmem b hmem'

/-- A walk from `x` on, which goes left where `before` says so, ends at the given link. -/
inductive Descends (child : Nat → Nat → Nat) (l r : Nat) (before : Nat → Bool) :
    (x : Nat) → (link last : Nat × Nat) → Prop
  | stop {link : Nat × Nat} : Descends child l r before absent link link
  | step {x k : Nat} {link last : Nat × Nat} : x ≠ absent → k = (if before x then l else r) →
    Descends child l r before (child x k) (x, k) last → Descends child l r before x link last

namespace Descends

variable {child child' : Nat → Nat → Nat} {l r x y p s : Nat} {as : List Nat} {before : Nat → Bool}
  {link : Nat × Nat}

/-- The walk ends where it starts, or at a field of a node that leads nowhere. -/
theorem last_mem (hd : Descends child l r before x link (p, s)) (ht : Tree child l r x as) :
    (x = absent ∧ link = (p, s)) ∨ (p ∈ as ∧ (s = l ∨ s = r) ∧ child p s = absent) := by
  induction ht generalizing link with
  | empty =>
    cases hd with
    | stop => exact Or.inl ⟨rfl, rfl⟩
    | step hne => exact absurd rfl hne
  | @node x as bs hne _ _ ihl ihr =>
    have hx : x ∈ as ++ x :: bs := List.mem_append_right _ (.head _)
    cases hd with
    | stop => exact absurd rfl hne
    | @step _ k _ _ _ hk hd =>
      refine Or.inr ?_
      split at hk
      · subst hk
        rcases ihl hd with ⟨habs, heq⟩ | ⟨hp, hrest⟩
        · cases heq
          exact ⟨hx, Or.inl rfl, habs⟩
        · exact ⟨List.mem_append_left _ hp, hrest⟩
      · subst hk
        rcases ihr hd with ⟨habs, heq⟩ | ⟨hp, hrest⟩
        · cases heq
          exact ⟨hx, Or.inr rfl, habs⟩
        · exact ⟨List.mem_append_right _ (.tail _ hp), hrest⟩

theorem congr {before' : Nat → Bool} {last : Nat × Nat}
    (hd : Descends child l r before x link last) (ht : Tree child l r x as)
    (hsame : ∀ y ∈ as, ∀ k, k = l ∨ k = r → child' y k = child y k)
    (hbefore : ∀ y ∈ as, before' y = before y) :
    Descends child' l r before' x link last := by
  induction ht generalizing link with
  | empty =>
    cases hd with
    | stop => exact .stop
    | step hne => exact absurd rfl hne
  | @node x as bs hne _ _ ihl ihr =>
    have hx : x ∈ as ++ x :: bs := List.mem_append_right _ (.head _)
    cases hd with
    | stop => exact absurd rfl hne
    | @step _ k _ _ _ hk hd =>
      have hk' : k = if before' x then l else r := by rw [hbefore x hx, hk]
      refine .step hne hk' ?_
      clear hk'
      split at hk
      · subst hk
        rw [hsame x hx k (Or.inl rfl)]
        exact ihl hd (fun y hy => hsame y (List.mem_append_left _ hy))
          fun y hy => hbefore y (List.mem_append_left _ hy)
      · subst hk
        rw [hsame x hx k (Or.inr rfl)]
        exact ihr hd (fun y hy => hsame y (List.mem_append_right _ (.tail _ hy)))
          fun y hy => hbefore y (List.mem_append_right _ (.tail _ hy))

/-- The children of a node after the walk has passed it. -/
theorem children {k k' : Nat} (hd : Descends child l r before (child x k) (x, k) (p, s))
    (ht : Tree child l r (child x k) as) (hx : x ∉ as) (hk : k ≠ k') (hset : child' p s = y)
    (hsame : ∀ i, i = k ∨ i = k' → (x = p → i ≠ s) → child' x i = child x i) :
    child' x k = (if child x k = absent then y else child x k) ∧ child' x k' = child x k' := by
  rcases hd.last_mem ht with ⟨habs, heq⟩ | ⟨hp, -⟩
  · cases heq
    rw [if_pos habs]
    exact ⟨hset, hsame k' (Or.inr rfl) fun _ => hk.symm⟩
  · have hne : x ≠ p := fun heq => hx (heq ▸ hp)
    rw [if_neg fun habs => by rw [habs] at ht; rw [ht.eq_nil] at hp; cases hp]
    exact ⟨hsame k (Or.inl rfl) fun heq => absurd heq hne,
      hsame k' (Or.inr rfl) fun heq => absurd heq hne⟩

/-- A new node at the end of the walk stands between the nodes that are not before it and those
that are. -/
theorem insert (hd : Descends child l r before x link (p, s)) (ht : Tree child l r x as)
    (hlr : l ≠ r) (hnodup : as.Nodup)
    (hmono : as.Pairwise fun a b => before a = true → before b = true) (hset : child' p s = y)
    (hsame : ∀ z ∈ as, ∀ k, k = l ∨ k = r → (z = p → k ≠ s) → child' z k = child z k)
    (hy : Tree child' l r y [y]) :
    ∃ bs cs, as = bs ++ cs ∧ (∀ b ∈ bs, before b = false) ∧ (∀ c ∈ cs, before c = true) ∧
      Tree child' l r (if x = absent then y else x) (bs ++ y :: cs) := by
  induction ht generalizing link with
  | empty =>
    rw [if_pos rfl]
    exact ⟨[], [], rfl, (fun b hb => nomatch hb), (fun c hc => nomatch hc), hy⟩
  | @node x as bs hne hl hr ihl ihr =>
    obtain ⟨hnodupl, hnodupr, hapart⟩ := List.nodup_append.mp hnodup
    obtain ⟨hmonol, hmonor, hacross⟩ := List.pairwise_append.mp hmono
    rw [List.nodup_cons] at hnodupr
    rw [List.pairwise_cons] at hmonor
    have hxl : x ∉ as := fun hmem => hapart x hmem x (.head _) rfl
    have hinl : ∀ z ∈ as, z ∈ as ++ x :: bs := fun z hz => List.mem_append_left _ hz
    have hinr : ∀ z ∈ bs, z ∈ as ++ x :: bs := fun z hz => List.mem_append_right _ (.tail _ hz)
    have hself := hsame x (List.mem_append_right _ (.head _))
    -- The subtree that the walk does not enter is left alone.
    have hcongr : ∀ {k : Nat} {cs : List Nat}, Tree child l r (child x k) cs →
        (∀ z ∈ cs, z ∈ as ++ x :: bs) → p ∉ cs → Tree child' l r (child x k) cs :=
      fun hcs hin hp => hcs.congr fun z hz =>
        ⟨hsame z (hin z hz) l (Or.inl rfl) fun heq => absurd (heq ▸ hz) hp,
          hsame z (hin z hz) r (Or.inr rfl) fun heq => absurd (heq ▸ hz) hp⟩
    rw [if_neg hne]
    cases hd with
    | stop => exact absurd rfl hne
    | @step _ k _ _ _ hk hd =>
      by_cases hbefore : before x = true
      · rw [if_pos hbefore] at hk
        subst hk
        obtain ⟨hchild, hother⟩ := hd.children hl hxl hlr hset hself
        obtain ⟨cs, ds, rfl, hcs, hds, htree⟩ := ihl hd hnodupl hmonol fun z hz =>
          hsame z (hinl z hz)
        have hp : p ∉ bs := by
          rcases hd.last_mem hl with ⟨-, heq⟩ | ⟨hp, -⟩
          · cases heq
            exact hnodupr.1
          · exact fun hmem => hapart p hp p (.tail _ hmem) rfl
        refine ⟨cs, ds ++ x :: bs, List.append_assoc .., hcs, fun c hc => ?_, ?_⟩
        · rcases List.mem_append.mp hc with hc | hc
          · exact hds c hc
          · rcases List.mem_cons.mp hc with rfl | hc
            · exact hbefore
            · exact hmonor.1 c hc hbefore
        · have hnew := Tree.node hne (hchild ▸ htree) (hother ▸ hcongr hr hinr hp)
          rw [List.append_assoc] at hnew
          exact hnew
      · rw [if_neg hbefore] at hk
        subst hk
        have hself' : ∀ i, i = k ∨ i = l → (x = p → i ≠ s) → child' x i = child x i :=
          fun i hi => hself i hi.symm
        obtain ⟨hchild, hother⟩ := hd.children hr hnodupr.1 hlr.symm hset hself'
        obtain ⟨cs, ds, rfl, hcs, hds, htree⟩ := ihr hd hnodupr.2 hmonor.2 fun z hz =>
          hsame z (hinr z hz)
        have hp : p ∉ as := by
          rcases hd.last_mem hr with ⟨-, heq⟩ | ⟨hp, -⟩
          · cases heq
            exact hxl
          · exact fun hmem => hapart p hmem p (.tail _ hp) rfl
        refine ⟨as ++ x :: cs, ds, by simp, fun b hb => Bool.eq_false_iff.mpr fun htrue => ?_, hds, ?_⟩
        · rcases List.mem_append.mp hb with hb | hb
          · exact hbefore (hacross b hb x (.head _) htrue)
          · rcases List.mem_cons.mp hb with rfl | hb
            · exact hbefore htrue
            · exact Bool.false_ne_true ((hcs b hb).symm.trans htrue)
        · have hnew := Tree.node hne (hother ▸ hcongr hl hinl hp) (hchild ▸ htree)
          rw [List.append_assoc]
          exact hnew

end Descends


end ArenaScheme
