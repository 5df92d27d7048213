import ArenaScheme.Proofs.WellFormed

/-! When a record stands for another one, in the same memory or in a different one: it has the same
kind, the same pin and the same bytes, except that where the one refers to a record, the other
refers to the record that corresponds. Which records correspond is a parameter. -/

namespace ArenaScheme

variable {r s t : Nat} {other : Nat → Nat → Prop}

variable {link : Nat → Nat → Prop}

/-- References that both lead nowhere, or to records that correspond. -/
def Linked (link : Nat → Nat → Prop) (r s : Nat) : Prop :=
  (r = absent ∧ s = absent) ∨ link r s

namespace Linked

theorem mono (h : Linked link r s) (himp : link r s → other r s) : Linked other r s :=
  h.imp_right himp

theorem flip (h : Linked link r s) : Linked (fun b a => link a b) s r :=
  h.imp_left And.symm

theorem comp (h : Linked link r s) (g : Linked other s t) (hleft : link r s → s ≠ absent)
    (hright : other s t → s ≠ absent) : Linked (fun a c => ∃ b, link a b ∧ other b c) r t := by
  rcases h with ⟨hr, hs⟩ | h
  · rcases g with ⟨_, ht⟩ | g
    · exact Or.inl ⟨hr, ht⟩
    · exact absurd hs (hright g)
  · rcases g with ⟨hs, _⟩ | g
    · exact absurd hs (hleft h)
    · exact Or.inr ⟨s, h, g⟩

end Linked

namespace Memory

/-- The record at `s` in `n` stands for the record at `r` in `m`. -/
structure Matches (link : Nat → Nat → Prop) (m : Memory) (r : Nat) (n : Memory) (s : Nat) :
    Prop where
  kind : n.kind s = m.kind r
  pinned : n.isPinned s = m.isPinned r
  payload : ∀ i, 5 ≤ i → i < m.extent r → ¬ m.InReference r i → n.byte (s + i) = m.byte (r + i)
  reference : ∀ k ∈ m.referenceFields r, Linked link (m.field r k) (n.field s k)

namespace Matches

variable {m n : Memory} {r s : Nat}

section

variable (h : Matches link m r n s)
include h

/-- A field that holds no reference is the same in both. -/
theorem field {k : Nat} (hk : k ∉ m.referenceFields r) (hend : 9 + 4 * k ≤ m.extent r) :
    n.field s k = m.field r k := by
  refine word_congr fun i hi => ?_
  have hout : ¬ m.InReference r (5 + 4 * k + i) := by
    rintro ⟨l, hl, hlow, hhigh⟩
    have : l = k := by omega
    exact hk (this ▸ hl)
  have := h.payload (5 + 4 * k + i) (by omega) (by omega) hout
  simpa only [fieldAddress_eq, Nat.add_assoc] using this

theorem extent : n.extent s = m.extent r := by
  have hkind := h.kind
  have hfield := fun k => h.field (k := k)
  unfold Memory.extent Memory.referenceFields at *
  rw [hkind]
  cases hk : m.kind r <;> simp only [hk] at hfield ⊢
  case symbol =>
    rw [hfield 3 (by decide) (by simp only [symbolSize, fieldsSize]; omega)]
  case string =>
    rw [hfield 0 (by decide) (by simp only [sequenceSize, fieldsSize]; omega)]
  case vector =>
    rw [hfield 0 (by simp) (by simp only [sequenceSize, fieldsSize]; omega)]

theorem referenceFields :
    n.referenceFields s = m.referenceFields r := by
  have hkind := h.kind
  have hfield := h.field (k := 0)
  unfold Memory.referenceFields Memory.extent at *
  rw [hkind]
  cases hk : m.kind r <;> simp only [hk] at hfield ⊢
  case vector =>
    rw [hfield (by simp) (by simp only [sequenceSize, fieldsSize]; omega)]

theorem inReference_iff (i : Nat) :
    n.InReference s i ↔ m.InReference r i := by
  unfold InReference
  rw [h.referenceFields]

theorem mono (himp : ∀ k ∈ m.referenceFields r, link (m.field r k) (n.field s k) →
      other (m.field r k) (n.field s k)) : Matches other m r n s :=
  ⟨h.kind, h.pinned, h.payload, fun k hk => (h.reference k hk).mono (himp k hk)⟩

theorem flip : Matches (fun b a => link a b) n s m r := by
  refine ⟨h.kind.symm, h.pinned.symm, fun i hlow hlt hout => ?_, fun k hk => ?_⟩
  · exact (h.payload i hlow (h.extent ▸ hlt) fun hin => hout ((h.inReference_iff i).mpr hin)).symm
  · exact (h.reference k (h.referenceFields ▸ hk)).flip

theorem comp {o : Memory} (g : Matches other n s o t) (hleft : ∀ a b, link a b → b ≠ absent)
    (hright : ∀ b c, other b c → b ≠ absent) :
    Matches (fun a c => ∃ b, link a b ∧ other b c) m r o t := by
  refine ⟨g.kind.trans h.kind, g.pinned.trans h.pinned, fun i hlow hlt hout => ?_, fun k hk => ?_⟩
  · rw [g.payload i hlow (h.extent ▸ hlt) fun hin => hout ((h.inReference_iff i).mp hin),
      h.payload i hlow hlt hout]
  · exact (h.reference k hk).comp (g.reference k (h.referenceFields ▸ hk)) (hleft _ _)
      (hright _ _)

end

theorem of_sameBody (h : SameBody m r n s) (hpin : n.isPinned s = m.isPinned r)
    (hlink : ∀ k ∈ m.referenceFields r, Linked link (m.field r k) (m.field r k)) :
    Matches link m r n s := by
  refine ⟨h.kind, hpin, fun i hlow hlt _ => h.body i hlow hlt, fun k hk => ?_⟩
  rw [h.reference hk]
  exact hlink k hk

end Matches

end Memory

end ArenaScheme
