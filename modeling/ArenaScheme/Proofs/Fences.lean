import ArenaScheme.Proofs.Scopes

/-! A fence around the bindings of one frame. No other frame and no binding outside leads to them,
so that a name in this frame, whatever it is, stays out of all others. -/

namespace ArenaScheme

open Memory Heap

variable {may : Effect → Prop} {b frame n r symbol value : Nat}

namespace Heap

variable {rules : Rules} {h g : Heap} {table : Nat} {own : Nat → Prop}

/-- `own` holds of the bindings of `table` and of no binding of another frame; outside it, all that
is bound are symbols that are not reserved. -/
structure Fenced (h : Heap) (table : Nat) (own : Nat → Prop) : Prop where
  root : ∀ f ∈ h.records, h.memory.kind f = .environment → h.memory.field f 1 ≠ absent →
    (own (h.memory.field f 1) ↔ f = table)
  link : ∀ b ∈ h.records, h.memory.kind b = .binding → ∀ k, k = 2 ∨ k = 3 →
    h.memory.field b k ≠ absent → (own (h.memory.field b k) ↔ own b)
  key : ∀ b ∈ h.records, h.memory.kind b = .binding → ¬ own b → h.Bindable (h.memory.field b 0)

theorem SameScopes.fenced (hsame : SameScopes h g) (hs : h.Sound rules)
    (hf : h.Fenced table own) : g.Fenced table own := by
  have hbinding : ∀ b ∈ g.records, g.memory.kind b = .binding →
      b ∈ h.records ∧ h.memory.kind b = .binding := fun b hb hk => by
    by_cases hmem : b ∈ h.records
    · exact ⟨hmem, (hsame.kind b hmem).symm.trans hk⟩
    · exact absurd hk (hsame.fresh b hb hmem).1
  refine ⟨fun f hf' hk hne => ?_, fun b hb hk k hside hne => ?_, fun b hb hk hnot => ?_⟩
  · by_cases hmem : f ∈ h.records
    · rw [hsame.kind f hmem] at hk
      rw [hsame.frame f hmem hk 1 (by decide)] at hne ⊢
      exact hf.root f hmem hk hne
    · exact absurd ((hsame.fresh f hf' hmem).2 hk) hne
  · obtain ⟨hmem, hk⟩ := hbinding b hb hk
    rw [hsame.binding b hmem hk k (by omega) (by omega)] at hne ⊢
    exact hf.link b hmem hk k hside hne
  · obtain ⟨hmem, hk⟩ := hbinding b hb hk
    rw [hsame.binding b hmem hk 0 (by decide) (by decide)]
    exact hsame.bindable (hf.key b hmem hk hnot) (hs.binding_key_mem hmem hk)

/-- The fence moves along with the bindings. -/
theorem Fenced.relocate {kept : Nat → Prop} {place : Nat → Nat} (hf : h.Fenced table own)
    (hs : h.Sound rules) (hr : h.Relocation kept place g) (htable : table ∈ h.records)
    (hpinned : h.memory.isPinned table = true) :
    g.Fenced table (fun r => ∃ b, kept b ∧ own b ∧ place b = r) := by
  have hkind : ∀ r, kept r → g.memory.kind (place r) = h.memory.kind r := fun r hkept =>
    (hr.record r hkept).kind
  have hown : ∀ r, kept r → ((∃ b, kept b ∧ own b ∧ place b = place r) ↔ own r) := fun r hkept =>
    ⟨fun ⟨b, hb, hown, heq⟩ => hr.injective hb hkept heq ▸ hown, fun hown => ⟨r, hkept, hown, rfl⟩⟩
  -- what a field that is not absent leads to
  have hfield : ∀ r k, kept r → k ∈ h.memory.referenceFields r → g.memory.field (place r) k ≠ absent →
      h.memory.field r k ≠ absent ∧ kept (h.memory.field r k) ∧
        g.memory.field (place r) k = place (h.memory.field r k) := fun r k hkept hk hne => by
    rcases (hr.record r hkept).reference k hk with ⟨-, habs⟩ | ⟨hkept', heq⟩
    · exact absurd habs hne
    · exact ⟨hs.wf.ne_absent (hr.mem _ hkept'), hkept', heq.symm⟩
  refine ⟨fun f hf' hk hne => ?_, fun b hb hk k hside hne => ?_, fun b hb hk hnot => ?_⟩
  · obtain ⟨f, hkept, rfl⟩ := (hr.records f).mp hf'
    rw [hkind f hkept] at hk
    obtain ⟨hne, hkept', heq⟩ := hfield f 1 hkept (by rw [environment_references hk]; decide) hne
    rw [heq, hown _ hkept', hf.root f (hr.mem f hkept) hk hne]
    have hplace := hs.place_pinned hr htable hpinned
    exact ⟨fun heq => heq ▸ hplace, fun heq =>
      hr.injective hkept (hr.pinned table htable hpinned) (heq.trans hplace.symm)⟩
  · obtain ⟨b, hkept, rfl⟩ := (hr.records b).mp hb
    rw [hkind b hkept] at hk
    obtain ⟨hne, hkept', heq⟩ := hfield b k hkept (mem_binding_references hk (by omega)) hne
    rw [heq, hown _ hkept', hown _ hkept]
    exact hf.link b (hr.mem b hkept) hk k hside hne
  · obtain ⟨b, hkept, rfl⟩ := (hr.records b).mp hb
    rw [hkind b hkept] at hk
    rw [hown _ hkept] at hnot
    have hmem := hs.binding_key_mem (hr.mem b hkept) hk
    obtain ⟨hkept', heq⟩ := hr.kept_field hs.wf hkept (mem_binding_references hk (by decide)) hmem
    rw [heq]
    exact (hf.key b (hr.mem b hkept) hk hnot).matched (hr.record _ hkept')

/-- Where a new binding of `frame` may hang: below the frame, or below a binding on the same side of
the fence. -/
def OnSide (h : Heap) (table : Nat) (own : Nat → Prop) (frame : Nat) (link : Nat × Nat) : Prop :=
  link = (frame, 1) ∨ link.1 ∈ h.records ∧ h.memory.kind link.1 = .binding ∧
    (link.2 = 2 ∨ link.2 = 3) ∧ (own link.1 ↔ frame = table)

theorem OnSide.holds {link : Nat × Nat} (hl : h.OnSide table own frame link)
    (hmem : frame ∈ h.records) (hk : h.memory.kind frame = .environment) :
    link.1 ∈ h.records ∧ Corr.HoldsBinding (h.memory.kind link.1) link.2 := by
  rcases hl with rfl | ⟨hmem, hk, hside, -⟩
  · exact ⟨hmem, Or.inl ⟨hk, rfl⟩⟩
  · exact ⟨hmem, Or.inr ⟨hk, hside⟩⟩

/-- The walk to the place of a new binding stays on its side of the fence, with newer records about as
well. -/
theorem Fenced.bindingLink (hf : h.Fenced table own) (hs : h.Sound rules) (hg : g.Sound rules)
    (hkeeps : KeepsScopes h g) {frame symbol fuel : Nat} (hframe : frame ∈ h.records)
    (hk : h.memory.kind frame = .environment) {link : Nat × Nat}
    (hl : h.OnSide table own frame link) :
    h.OnSide table own frame (g.bindingLink symbol fuel link) := by
  induction fuel generalizing link with
  | zero => exact hl
  | succ fuel ih =>
    obtain ⟨hmem, hholds⟩ := hl.holds hframe hk
    have hloose : g.looseField link.1 link.2 = g.memory.field link.1 link.2 :=
      hg.looseField_eq (hkeeps.mem _ hmem)
        (field_end_le_extent (Corr.mem_of_holdsBinding (hkeeps.kind _ hmem ▸ hholds)))
    have hsame : g.memory.field link.1 link.2 = h.memory.field link.1 link.2 := by
      rcases hholds with ⟨hk, hside⟩ | ⟨hk, hside⟩
      · exact hkeeps.frame _ hmem hk _ (by omega)
      · exact hkeeps.binding _ hmem hk _ (by omega) (by omega)
    unfold Heap.bindingLink
    simp only [hloose, hsame]
    split
    · exact hl
    · rename_i hne
      obtain ⟨hchild, hchildKind⟩ := (hs.leadsTo_binding hmem hholds).resolve_left hne
      refine ih (Or.inr ⟨hchild, hchildKind, by split <;> simp, ?_⟩)
      rcases hl with rfl | ⟨-, hbinding, hside, hiff⟩
      · exact hf.root frame hframe hk hne
      · exact (hf.link _ hmem hbinding _ hside hne).trans hiff

/-- A new binding hangs on the side of its frame. -/
theorem BindingAdded.onSide (ha : h.BindingAdded rules frame symbol value g) (hs : h.Sound rules)
    (hf : h.Fenced table own) :
    ∃ node side, h.BindingPut node side symbol value g ∧ h.OnSide table own frame (node, side) := by
  obtain ⟨m, hm, hhung⟩ := ha.added
  cases hhung with
  | @below node side n hlink hset =>
    have hside := @Fenced.bindingLink _ _ _ _ _ hf hs (hm.sound hs) (hm.keepsScopes hs) frame symbol
      { h with memory := m, top := h.top + fieldsSize 4 }.capacity ha.frame_mem ha.frame_kind _
      (Or.inl rfl)
    rw [hlink] at hside
    obtain ⟨hnode, hholds⟩ := hside.holds ha.frame_mem ha.frame_kind
    exact ⟨node, side, hm.bindingPut hs ha.symbol_mem ha.value_mem hset hnode
      (Corr.mem_of_holdsBinding hholds), hside⟩

/-- The fence takes in a binding of its own frame, and no other. -/
theorem BindingAdded.fenced (ha : h.BindingAdded rules frame symbol value g) (hs : h.Sound rules)
    (htable : ∀ t, rules.table = some t → t = table) (hf : h.Fenced table own) :
    ∃ own', g.Fenced table own' := by
  obtain ⟨node, side, hp, hside⟩ := ha.onSide hs hf
  obtain ⟨hnode, hholds⟩ := hside.holds ha.frame_mem ha.frame_kind
  have hfresh : ∀ r ∈ h.records, r ≠ h.top := fun r hr => Nat.ne_of_lt (hs.wf.lt_top hr)
  have hcases : ∀ r ∈ g.records, r ∈ h.records ∨ r = h.top := fun r hr => by
    rw [hp.records, List.mem_append, List.mem_singleton] at hr
    exact hr
  have hold : ∀ r ∈ h.records, ((own r ∧ r ≠ h.top ∨ r = h.top ∧ frame = table) ↔ own r) :=
    fun r hr => by simp [hfresh r hr]
  have hnew : (own h.top ∧ h.top ≠ h.top ∨ h.top = h.top ∧ frame = table) ↔ frame = table := by simp
  refine ⟨fun r => own r ∧ r ≠ h.top ∨ r = h.top ∧ frame = table, ⟨fun f hf' hk hne => ?_,
    fun b hb hk k hkside hne => ?_, fun b hb hk hnot => ?_⟩⟩
  · rcases hcases f hf' with hmem | rfl
    · rw [hp.kind hmem] at hk
      by_cases heq : f = node ∧ 1 = side
      · obtain ⟨rfl, rfl⟩ := heq
        rw [hp.link, hnew]
        rcases hside with heq | ⟨-, hbinding, -, -⟩
        · rw [(Prod.mk.inj heq).1]
        · cases hk.symm.trans hbinding
      · rw [hp.field f hmem 1 (by rw [environment_references hk]; decide)
          fun hnode hside => heq ⟨hnode, hside⟩] at hne ⊢
        rw [hold _ ((hs.leadsTo_binding hmem (Or.inl ⟨hk, rfl⟩)).resolve_left hne).1]
        exact hf.root f hmem hk hne
    · cases hp.new_kind.symm.trans hk
  · rcases hcases b hb with hmem | rfl
    · rw [hp.kind hmem] at hk
      rw [hold b hmem]
      by_cases heq : b = node ∧ k = side
      · obtain ⟨rfl, rfl⟩ := heq
        rw [hp.link, hnew]
        rcases hside with heq | ⟨-, -, -, hiff⟩
        · rw [(Prod.mk.inj heq).1, ha.frame_kind] at hk
          cases hk
        · exact hiff.symm
      · rw [hp.field b hmem k (mem_binding_references hk (by omega))
          fun hnode hside => heq ⟨hnode, hside⟩] at hne ⊢
        rw [hold _ ((hs.leadsTo_binding hmem (Or.inr ⟨hk, hkside⟩)).resolve_left hne).1]
        exact hf.link b hmem hk k hkside hne
    · exact absurd (hp.new_leaf k hkside) hne
  · rcases hcases b hb with hmem | rfl
    · rw [hp.kind hmem] at hk
      rw [hold b hmem] at hnot
      rw [hp.binding_symbol hholds.two_le hmem hk]
      exact hp.bindable (hf.key b hmem hk hnot) (hs.binding_key_mem hmem hk)
    · rw [hp.new_symbol]
      exact hp.bindable (ha.bindable fun heq => hnot (Or.inr ⟨rfl, htable frame heq⟩)) ha.symbol_mem

/-- Every step leaves a fence, whatever is bound inside it. -/
theorem Change.fenced (hc : h.Change rules n may g) (hs : h.Sound rules) (ht : h.Indexed)
    (hrules : ∀ t, rules.table = some t → t = table) (htable : table ∈ h.records)
    (hpinned : h.memory.isPinned table = true) (hf : h.Fenced table own) :
    ∃ own', g.Fenced table own' := by
  cases hc with
  | move hmove => exact ⟨_, hf.relocate hs hmove htable hpinned⟩
  | roots l _ _ _ =>
    have hsame : SameScopes h { h with roots := l } := .of_memory rfl rfl
    exact ⟨own, hsame.fenced hs hf⟩
  | record hm hkind _ => exact ⟨own, (hm.sameScopes hs (by rintro rfl; cases hkind)).fenced hs hf⟩
  | field _ hm heffect _ =>
    obtain ⟨hframe, hsymbol, hbinding⟩ := fieldEffect_kinds heffect
    exact ⟨own, (hs.sameScopes_setField hm hframe hbinding fun hk => absurd hk hsymbol).fenced hs hf⟩
  | symbol hadded _ =>
    obtain ⟨rs, hindex⟩ := ht
    exact ⟨own, (hadded.sameScopes hs hindex).fenced hs hf⟩
  | binding hadded _ => exact hadded.fenced hs hrules hf

theorem Evolves.fenced (he : Evolves rules n may h g) (ht : h.Indexed)
    (hrules : ∀ t, rules.table = some t → t = table) (htable : table ∈ h.records)
    (hpinned : h.memory.isPinned table = true) (hf : ∃ own, h.Fenced table own) :
    ∃ own, g.Fenced table own := by
  induction he with
  | refl _ _ => exact hf
  | step hs hn hc _ ih =>
    obtain ⟨own, hf⟩ := hf
    have hlasts := hc.pinned hs htable hpinned
    exact ih (hc.indexed hs ht) hlasts.mem (hlasts.pinned.trans hpinned)
      (hc.fenced hs ht hrules htable hpinned hf)

/-- No binding of another frame is inside the fence. -/
theorem Fenced.not_own (hf : h.Fenced table own) (hs : h.Sound rules) (hframe : frame ∈ h.records)
    (hk : h.memory.kind frame = .environment) (hne : frame ≠ table) (hb : h.Hangs frame b) :
    ¬ own b := by
  induction hb with
  | root habsent => exact fun hown => hne ((hf.root frame hframe hk habsent).mp hown)
  | child hup hside habsent ih =>
    obtain ⟨hmem, hkind⟩ := hup.binding hs hframe hk
    exact fun hown => ih ((hf.link _ hmem hkind _ hside habsent).mp hown)

/-- Other frames bind symbols that are not reserved. -/
theorem Fenced.bindable (hf : h.Fenced table own) (hs : h.Sound rules) (hframe : frame ∈ h.records)
    (hk : h.memory.kind frame = .environment) (hne : frame ≠ table) (hb : h.Hangs frame b) :
    h.Bindable (h.memory.field b 0) := by
  obtain ⟨hmem, hkind⟩ := hb.binding hs hframe hk
  exact hf.key b hmem hkind (hf.not_own hs hframe hk hne hb)

/-- All frames outside the fence stay in order, whatever is bound inside. -/
theorem Change.ranged_outside (hc : h.Change rules n may g) (hs : h.Sound rules)
    (hg : g.Sound rules) (hrules : ∀ t, rules.table = some t → t = table)
    (htable : table ∈ h.records) (hpinned : h.memory.isPinned table = true)
    (hf : h.Fenced table own) (ht : h.Ranged False (· ≠ table)) : g.Ranged False (· ≠ table) := by
  refine hc.ranged hs hg ht (fun kept place hr f _ hne heq => ?_)
    fun {frame symbol value} hadded => ?_
  · rw [heq] at hne
    exact hne (hs.place_pinned hr htable hpinned)
  by_cases hframe : frame = table
  · refine hadded.ranged_of_scopes hs ht False.elim fun f hmem hk hne cs hcs =>
      ⟨cs, ?_, fun _ hb => Or.inl hb⟩
    -- what has the new binding is the frame of the fence or inside it
    obtain ⟨node, side, hp, hside⟩ := hadded.onSide hs hf
    rcases hside with heq | ⟨-, hbinding, -, hiff⟩
    · obtain ⟨rfl, rfl⟩ := Prod.mk.inj heq
      refine hp.scope_other hs hg hcs hmem hk (hframe ▸ hne) fun hin => ?_
      cases hadded.frame_kind.symm.trans (hcs.mem _ hin).2
    · refine hp.scope_other hs hg hcs hmem hk (fun heq => ?_) fun hin => ?_
      · cases hbinding.symm.trans (heq ▸ hk)
      · exact hf.not_own hs hmem hk hne (hcs.hangs _ hin) (hiff.mpr hframe)
  · exact hadded.ranged (fun heq => hframe (hrules frame heq)) hs hg ht hframe

theorem Evolves.ranged_outside (he : Evolves rules n may h g)
    (hrules : ∀ t, rules.table = some t → t = table) (htable : table ∈ h.records)
    (hpinned : h.memory.isPinned table = true) (hf : ∃ own, h.Fenced table own)
    (ht : h.Ranged False (· ≠ table)) :
    g.Ranged False (· ≠ table) := by
  induction he with
  | refl _ _ => exact ht
  | step hs _ hc hrest ih =>
    obtain ⟨own, hf⟩ := hf
    have hlasts := hc.pinned hs htable hpinned
    exact ih hlasts.mem (hlasts.pinned.trans hpinned)
      (hc.fenced hs ht.table hrules htable hpinned hf)
      (hc.ranged_outside hs hrest.sound_left hrules htable hpinned hf ht)

end Heap

end ArenaScheme
