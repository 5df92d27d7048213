import ArenaScheme.Proofs.Construction
import ArenaScheme.Proofs.Objects

/-! Changing a field of records that stand for each other, on both sides alike. -/

namespace ArenaScheme

open Memory Heap

/-- What holds after a field was changed: all records are where they were. -/
structure Updated (v w : View) : Prop where
  rel : ∀ a b, v.Rel a b → w.Rel a b
  kind : ∀ a ∈ v.left.records, w.left.memory.kind a = v.left.memory.kind a
  roots : w.left.roots = v.left.roots

namespace Corr

variable {v : View} {a b c d k x y t u : Nat}

theorem settable_right (hv : Corr v) (h : v.Rel x y) (hk : v.left.memory.Settable x k) :
    v.right.memory.Settable y k := by
  rcases hk with hk | ⟨hstring, hlow, hle⟩
  · exact Or.inl ((hv.matched h).referenceFields ▸ hk)
  · refine Or.inr ⟨(hv.kind_eq h).trans hstring, hlow, ?_⟩
    rwa [hv.length_eq h (Or.inl hstring)]

theorem linked_lt (hv : Corr v) (h : Linked v.Rel t u) : t < 4294967296 ∧ u < 4294967296 := by
  rcases h with ⟨rfl, rfl⟩ | h
  · decide
  · exact ⟨Nat.lt_trans (hv.left.wf.lt_top (hv.mem_left h.1)) hv.left.wf.top_lt,
      Nat.lt_trans (hv.right.wf.lt_top (hv.mem_right h.1)) hv.right.wf.top_lt⟩

/-- Setting a field of corresponding records to values that correspond. -/
theorem fieldSet (hv : Corr v) (hxy : v.Rel x y) (hk : v.left.memory.Settable x k)
    (href : k ∈ v.left.memory.referenceFields x → Linked v.Rel t u)
    (hplain : k ∉ v.left.memory.referenceFields x → t = u ∧ t < 4294967296) :
    FieldSet v.left.records v.left.memory x k t (v.left.memory.setField x k t) ∧
      FieldSet v.right.records v.right.memory y k u (v.right.memory.setField y k u) := by
  have hlt : t < 4294967296 ∧ u < 4294967296 := by
    by_cases hin : k ∈ v.left.memory.referenceFields x
    · exact hv.linked_lt (href hin)
    · obtain ⟨rfl, hlt⟩ := hplain hin
      exact ⟨hlt, hlt⟩
  exact ⟨fieldSet_setField hv.left.wf.tiled hv.left.wf.top_le (hv.mem_left hxy.1) hk hlt.1,
    fieldSet_setField hv.right.wf.tiled hv.right.wf.top_le (hv.mem_right hxy.1)
      (hv.settable_right hxy hk) hlt.2⟩

theorem updated_setField {m m' : Memory} (hv : Corr v) (hx : v.Visible x)
    (hm : FieldSet v.left.records v.left.memory x k t m) : Updated v (v.withMemory m m') :=
  ⟨fun _ _ h => hv.rel_setField hx hm h, fun _ ha => hm.kind ha, rfl⟩

end Corr

/-- In one heap, values that correspond are the same. -/
theorem View.Single.linked_eq {v : View} {t u : Nat} (hs : v.Single) (h : Linked v.Rel t u) : t = u :=
  h.elim (fun habs => habs.1.trans habs.2.symm) fun hrel => hs.eq t u hrel.1

theorem View.Single.value_eq {v : View} {p : Prop} {t u : Nat} (hs : v.Single)
    (hlinked : p → Linked v.Rel t u) (hplain : ¬ p → t = u) : t = u := by
  by_cases hp : p
  · exact hs.linked_eq (hlinked hp)
  · exact hplain hp

/-- The same step leaves one heap. -/
theorem View.Single.of_runs {v w : View} {x y : HeapM Unit} (hs : v.Single) (hrel : w.rel = v.rel)
    (hleft : x v.left = .ok () w.left) (hright : y v.right = .ok () w.right) (hxy : x = y) :
    w.Single := by
  subst hxy
  rw [← hs.same, hleft] at hright
  injection hright with _ hsame
  exact ⟨hsame, by rw [hrel]; exact hs.eq⟩

/-- Symbols have no field that changes by itself. -/
theorem Heap.kind_ne_of_fieldEffect {h : Heap} {r k : Nat} {effect : Effect}
    (heffect : h.fieldEffect r k = some effect) : h.memory.kind r ≠ .symbol := by
  intro hk
  simp only [fieldEffect, hk, reduceCtorEq] at heffect

/-- What is noted moves nothing. -/
theorem Heap.Sound.relocation_note {rules : Rules} {h : Heap} (hs : h.Sound rules)
    (journal : List Event) : h.Relocation (· ∈ h.records) id { h with journal } :=
  (Relocation.refl hs.wf).congr (fun _ => rfl) rfl rfl rfl rfl hs.wf.top_le (Nat.le_refl _)
    hs.wf.capacity_le

namespace Agrees

variable {v : View} {n k x y t u : Nat} {effect : Effect}

section

variable (hv : Corr v) (hn : n ≤ v.left.roots.size)
include hv hn

theorem note {event event' : Event} (hsame : v.Single → event = event') :
    Agrees n v (fun w _ _ => Updated v w) (HeapM.note event) (HeapM.note event') := by
  have hl := hv.left.relocation_note (event :: v.left.journal)
  have hr := hv.right.relocation_note (event' :: v.right.journal)
  refine .ok (((v.moveLeft _ id _).moveRight _ id _)) ((hv.moveLeft hl).moveRight hr)
    (hv.later_move hl hn fun hs => ?_) ⟨fun a b hab => ?_, fun _ _ => rfl, rfl⟩
  · rw [hsame hs, hs.same]
    exact ⟨rfl, rfl, rfl⟩
  · exact Corr.rel_moveRight (hv.rel_moveLeft hl hab (hv.mem_left hab.1)) (hv.mem_right hab.1)

theorem setField (hxy : v.Rel x y) (heffect : v.left.fieldEffect x k = some effect)
    (hmay : v.may effect) (hk : v.left.memory.Settable x k)
    (href : k ∈ v.left.memory.referenceFields x → Linked v.Rel t u ∧ v.left.Allowed v.rules x k t)
    (hplain : k ∉ v.left.memory.referenceFields x → t = u ∧ t < 4294967296) :
    Agrees n v (fun w _ _ => Updated v w) (HeapM.setField x k t) (HeapM.setField y k u) := by
  obtain ⟨hm, hm'⟩ := hv.fieldSet hxy hk (fun hin => (href hin).1) hplain
  have hsame : v.Single → v.left.memory.setField x k t = v.right.memory.setField y k u := fun hs => by
    rw [hs.same, hs.eq x y hxy.1, hs.value_eq (fun hin => (href hin).1) fun hout => (hplain hout).1]
  change Outcome n v _ (.ok () { v.left with memory := v.left.memory.setField x k t })
    (.ok () { v.right with memory := v.right.memory.setField y k u })
  generalize v.left.memory.setField x k t = m at hm hsame ⊢
  generalize v.right.memory.setField y k u = m' at hm' hsame ⊢
  have hw := hv.setField hxy hm hm' (fun h => absurd h (kind_ne_of_fieldEffect heffect)) href
    fun hout => (hplain hout).1
  exact .ok (v.withMemory m m') hw
    (hv.later_setField hn (hv.mem_left hxy.1) hm hw hsame heffect hmay) (hv.updated_setField hxy.2 hm)

/-- A field that may hold any record. -/
theorem setReference (hxy : v.Rel x y) (heffect : v.left.fieldEffect x k = some effect)
    (hmay : v.may effect) (hk : k ∈ v.left.memory.referenceFields x) (htu : v.Rel t u)
    (hfits : (v.left.memory.kind x).Fits v.rules k x (v.left.memory.kind t) t) :
    Agrees n v (fun w _ _ => Updated v w) (HeapM.setField x k t) (HeapM.setField y k u) :=
  setField hv hn hxy heffect hmay (Or.inl hk)
    (fun _ => ⟨Or.inr htu, Or.inr ⟨hv.mem_left htu.1, hfits⟩⟩) fun hout => absurd hk hout

theorem setPair (hmay : v.may .update) (hxy : v.Rel x y) (htu : v.Rel t u) (hlt : k < 2)
    (hpair : v.left.memory.kind x = .pair) :
    Agrees n v (fun w _ _ => Updated v w) (HeapM.setField x k t) (HeapM.setField y k u) := by
  refine setReference hv hn hxy (by rw [Heap.fieldEffect, hpair]) hmay ?_ htu
    (by rw [hpair]; trivial)
  rw [pair_references hpair, List.mem_cons, List.mem_singleton]
  omega

theorem setCar (hmay : v.may .update) (hxy : v.Rel x y) (htu : v.Rel t u) :
    Agrees n v (fun w _ _ => Updated v w) (HeapM.setCar x t) (HeapM.setCar y u) :=
  query_bind hv hn (hv.expectKind hxy .pair "pair") fun _ _ hpair =>
    setPair hv hn hmay hxy htu (by decide) hpair

theorem setCdr (hmay : v.may .update) (hxy : v.Rel x y) (htu : v.Rel t u) :
    Agrees n v (fun w _ _ => Updated v w) (HeapM.setCdr x t) (HeapM.setCdr y u) :=
  query_bind hv hn (hv.expectKind hxy .pair "pair") fun _ _ hpair =>
    setPair hv hn hmay hxy htu (by decide) hpair

theorem stringSet (hmay : v.may .update) (hxy : v.Rel x y) (index : Int) (c : Char) :
    Agrees n v (fun w _ _ => Updated v w) (HeapM.stringSet x index c)
      (HeapM.stringSet y index c) := by
  refine query_bind hv hn (hv.stringLength hxy) fun l m ⟨hlm, hk, hl⟩ => ?_
  subst hlm hl
  refine query_bind hv hn (Corr.checkedIndex _ index) fun i j ⟨hij, hi⟩ => ?_
  subst hij
  have hout : 1 + i ∉ v.left.memory.referenceFields x := by simp [referenceFields, hk]
  refine setField hv hn hxy (by rw [Heap.fieldEffect, hk]) hmay (Or.inr ⟨hk, by omega, by omega⟩)
    (fun hin => absurd hin hout) fun _ => ⟨rfl, ?_⟩
  exact c.val.toNat_lt

theorem vectorSet (hmay : v.may .update) (hxy : v.Rel x y) (index : Int) (htu : v.Rel t u) :
    Agrees n v (fun w _ _ => Updated v w) (HeapM.vectorSet x index t)
      (HeapM.vectorSet y index u) := by
  refine query_bind hv hn (hv.vectorLength hxy) fun l m ⟨hlm, hk, hl⟩ => ?_
  subst hlm hl
  refine query_bind hv hn (Corr.checkedIndex _ index) fun i j ⟨hij, hi⟩ => ?_
  subst hij
  refine setReference hv hn hxy (by rw [Heap.fieldEffect, hk]) hmay ?_ htu (by rw [hk]; trivial)
  simp only [referenceFields, hk, List.mem_range'_1]
  omega

end

end Agrees

end ArenaScheme
