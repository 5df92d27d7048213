import ArenaScheme.Proofs.Shown

/-! Computations that only add. Where nothing is bound and nothing is updated, records and symbols
are added and records move. All that a root of before leads to is still there, each record once and
with the contents it had. -/

namespace ArenaScheme

open Memory Heap

/-- The effect of a computation that makes data and symbols only. -/
def Effect.IsAddition : Effect → Prop
  | .intern _ | .procedure _ => True
  | _ => False

namespace Heap

variable {rules : Rules} {link : Nat → Nat → Prop} {h k g : Heap} {n : Nat}

/-- Along `link` the records of `h` go over into records of `g`, one for one. They stay as they are
but for where references lead, and symbols but for their place in the symbol table. -/
structure Keeps (link : Nat → Nat → Prop) (h g : Heap) : Prop where
  mem : ∀ r s, link r s → r ∈ h.records ∧ s ∈ g.records
  unique : ∀ r s s', link r s → link r s' → s = s'
  injective : ∀ r r' s, link r s → link r' s → r = r'
  record : ∀ r s, link r s → h.memory.kind r ≠ .symbol → Matches link h.memory r g.memory s
  symbol : ∀ r s, link r s → h.memory.kind r = .symbol →
    g.memory.kind s = .symbol ∧ g.nameBytes s = h.nameBytes r

theorem Keeps.trans {other : Nat → Nat → Prop} (hk : Keeps link h k) (hg : Keeps other k g)
    (wf : k.WellFormed) : Keeps (fun r t => ∃ s, link r s ∧ other s t) h g where
  mem := by
    rintro r t ⟨s, hrs, hst⟩
    exact ⟨(hk.mem r s hrs).1, (hg.mem s t hst).2⟩
  unique := by
    rintro r t t' ⟨s, hrs, hst⟩ ⟨s', hrs', hst'⟩
    obtain rfl := hk.unique r s s' hrs hrs'
    exact hg.unique s t t' hst hst'
  injective := by
    rintro r r' t ⟨s, hrs, hst⟩ ⟨s', hrs', hst'⟩
    obtain rfl := hg.injective s s' t hst hst'
    exact hk.injective r r' s hrs hrs'
  record := by
    rintro r t ⟨s, hrs, hst⟩ hkind
    have hm := hk.record r s hrs hkind
    refine hm.comp (hg.record s t hst (hm.kind ▸ hkind)) ?_ ?_
    · exact fun a b hab => wf.ne_absent (hk.mem a b hab).2
    · exact fun a b hab => wf.ne_absent (hg.mem a b hab).1
  symbol := by
    rintro r t ⟨s, hrs, hst⟩ hkind
    obtain ⟨hs, hname⟩ := hk.symbol r s hrs hkind
    obtain ⟨ht, hname'⟩ := hg.symbol s t hst hs
    exact ⟨ht, hname'.trans hname⟩

/-- Moved records go over. -/
theorem Relocation.keeps {kept : Nat → Prop} {place : Nat → Nat} (hr : h.Relocation kept place g) :
    Keeps (Goes kept place) h g where
  mem := by
    rintro r _ ⟨hkept, rfl⟩
    exact ⟨hr.mem r hkept, hr.mem_records hkept⟩
  unique := by
    rintro r _ _ ⟨-, rfl⟩ ⟨-, rfl⟩
    rfl
  injective := by
    rintro r r' _ ⟨hkept, rfl⟩ ⟨hkept', heq⟩
    rcases Nat.lt_trichotomy r r' with hlt | rfl | hlt
    · exact absurd heq.symm (Nat.ne_of_lt (hr.increasing r r' hkept hkept' hlt))
    · rfl
    · exact absurd heq (Nat.ne_of_lt (hr.increasing r' r hkept' hkept hlt))
  record := by
    rintro r _ ⟨hkept, rfl⟩ -
    exact hr.record r hkept
  symbol := by
    rintro r _ ⟨hkept, rfl⟩ hkind
    exact ⟨(hr.record r hkept).kind.trans hkind, (hr.record r hkept).nameBytes hkind⟩

/-- The records of a heap, each where it is. -/
def Remains (h : Heap) (r s : Nat) : Prop := r ∈ h.records ∧ r = s

/-- Records that stay in place go over to themselves. -/
theorem Keeps.remain (wf : h.WellFormed) (hlasts : ∀ r ∈ h.records, Lasts h r g)
    (hsame : ∀ r ∈ h.records, h.memory.kind r ≠ .symbol → Matches Eq h.memory r g.memory r)
    (hname : ∀ r ∈ h.records, h.memory.kind r = .symbol → g.nameBytes r = h.nameBytes r) :
    Keeps h.Remains h g where
  mem := by
    rintro r _ ⟨hr, rfl⟩
    exact ⟨hr, (hlasts r hr).mem⟩
  unique := by
    rintro r _ _ ⟨-, rfl⟩ ⟨-, rfl⟩
    rfl
  injective := by
    rintro r r' _ ⟨-, rfl⟩ ⟨-, rfl⟩
    rfl
  record := by
    rintro r _ ⟨hr, rfl⟩ hkind
    have hm := hsame r hr hkind
    refine ⟨hm.kind, hm.pinned, hm.payload, fun i hi => ?_⟩
    rw [hm.reference_eq hi]
    rcases wf.reference r hr i hi with habsent | hmem
    · exact Or.inl ⟨habsent, habsent⟩
    · exact Or.inr ⟨hmem, rfl⟩
  symbol := by
    rintro r _ ⟨hr, rfl⟩ hkind
    exact ⟨(hlasts r hr).kind.trans hkind, hname r hr hkind⟩

/-- What a step keeps that binds nothing and updates nothing. -/
theorem Change.keeps (hc : h.Change rules n Effect.IsAddition g) (hs : h.Sound rules)
    (ht : h.Indexed) (hn : n ≤ h.roots.size) :
    ∃ link, Keeps link h g ∧ ∀ i < n, link (h.root i) (g.root i) := by
  have hroot : ∀ i < n, h.root i ∈ h.roots := fun i hi => root_mem (Nat.lt_of_lt_of_le hi hn)
  have hmove : (∃ kept place, h.Relocation kept place g) →
      ∃ link, Keeps link h g ∧ ∀ i < n, link (h.root i) (g.root i) := by
    rintro ⟨kept, place, hmove⟩
    refine ⟨_, hmove.keeps, fun i hi => ⟨hmove.root _ (hroot i hi), ?_⟩⟩
    exact (hmove.root_eq (Nat.lt_of_lt_of_le hi hn)).symm
  -- without a move, all records but symbols are left alone
  have hsame : (∃ kept place, h.Relocation kept place g) ∨
      ∀ r ∈ h.records, h.memory.kind r ≠ .symbol → Matches Eq h.memory r g.memory r := by
    cases hc with
    | move hr => exact Or.inl ⟨_, _, hr⟩
    | roots _ _ _ _ =>
      exact Or.inr fun r _ _ => .of_sameBody (.refl _ _) rfl fun _ _ => Or.inr rfl
    | record hm _ _ => exact Or.inr fun r hr _ => hm.matches_self hs.wf hr
    | field _ _ heffect hmay =>
      unfold fieldEffect at heffect
      split at heffect
      case h_4 => split at heffect <;> cases heffect; exact hmay.elim
      all_goals cases heffect
      all_goals exact hmay.elim
    | symbol hadded _ =>
      obtain ⟨rs, htable⟩ := ht
      exact Or.inr fun r hr hkind => hadded.same hs htable hr hkind
    | binding _ hmay => exact hmay.elim
  rcases hc.still hs ht with hm | ⟨hsameRoot, hname⟩
  · exact hmove hm
  rcases hc.lasts hs with hm | hlasts
  · exact hmove hm
  rcases hsame with hm | hsame
  · exact hmove hm
  refine ⟨_, .remain hs.wf hlasts hsame hname, fun i hi => ⟨hs.wf.root _ (hroot i hi), ?_⟩⟩
  exact (hsameRoot i hi).symm

/-- What a computation keeps that binds nothing and updates nothing. -/
theorem Evolves.keeps (he : Evolves rules n Effect.IsAddition h g) (ht : h.Indexed) :
    ∃ link, Keeps link h g ∧ ∀ i < n, link (h.root i) (g.root i) := by
  induction he with
  | refl hs hn =>
    refine ⟨_, .remain hs.wf (fun r hr => ⟨hr, rfl, rfl⟩) (fun r _ _ => ?_) (fun _ _ _ => rfl),
      fun i hi => ⟨hs.wf.root _ (root_mem (Nat.lt_of_lt_of_le hi hn)), rfl⟩⟩
    exact .of_sameBody (.refl _ _) rfl fun _ _ => Or.inr rfl
  | step hs hn hc he ih =>
    obtain ⟨link, hlink, hroot⟩ := hc.keeps hs ht hn
    obtain ⟨other, hother, hroot'⟩ := ih (hc.indexed hs ht)
    exact ⟨_, hlink.trans hother he.sound_left.wf, fun i hi => ⟨_, hroot i hi, hroot' i hi⟩⟩

end Heap

end ArenaScheme
