import ArenaScheme.Proofs.HeapRuns
import ArenaScheme.Proofs.Making
import ArenaScheme.Proofs.Scopes

/-! Symbols are interned for the life of a heap. In the course of any run, a name gets a symbol when
it is interned for the first time, no other operation makes or loses a symbol, and a root that leads
to a symbol goes on leading to the symbol of that name. -/

namespace ArenaScheme

open Memory Heap

variable {h : Heap} {i r : Nat} {place : Nat → Nat} {kept : Nat → Prop} {text : String}

namespace Text

theorem toList_loop (bytes : ByteArray) (i : Nat) (r : List UInt8) :
    ByteArray.toList.loop bytes i r = r.reverse ++ bytes.data.toList.drop i := by
  have hsize : bytes.data.toList.length = bytes.size := Array.length_toList
  induction hn : bytes.size - i generalizing i r with
  | zero =>
    rw [ByteArray.toList.loop.eq_def, if_neg (by omega), List.drop_eq_nil_of_le (by omega),
      List.append_nil]
  | succ n ih =>
    have hlt : i < bytes.data.toList.length := by omega
    have hget : bytes.get! i = bytes.data.toList[i] := by
      change bytes.data[i]! = _
      rw [Array.getElem_toList, getElem!_pos bytes.data i (by simpa using hlt)]
    rw [ByteArray.toList.loop.eq_def, if_pos (by omega), ih _ _ (by omega), List.reverse_cons,
      List.append_assoc, List.singleton_append, hget, List.getElem_cons_drop]

theorem toList_eq (bytes : ByteArray) : bytes.toList = bytes.data.toList := by
  rw [ByteArray.toList, toList_loop, List.reverse_nil, List.nil_append, List.drop_zero]

theorem length_toUTF8 (text : String) : text.toUTF8.toList.length = text.utf8ByteSize := by
  rw [toList_eq]
  rfl

/-- Text is what its bytes stand for. -/
theorem decode_toUTF8 (text : String) : decode text.toUTF8.toList = text := by
  have hbytes : (⟨text.toUTF8.toList.toArray⟩ : ByteArray) = text.toUTF8 := by
    rw [toList_eq, Array.toArray_toList]
  have hvalid : text.toUTF8.IsValidUTF8 := text.isValidUTF8
  rw [decode, hbytes, String.fromUTF8?, dif_pos hvalid]
  rfl

theorem toUTF8_injective {text' : String} (h : text.toUTF8.toList = text'.toUTF8.toList) :
    text = text' := by
  rw [← decode_toUTF8 text, h, decode_toUTF8]

end Text

namespace Heap

variable {rules : Rules} {h g : Heap} {rs : List Nat} {name : List UInt8}

/-- Whether there is a symbol of this name. -/
def HasName (h : Heap) (name : List UInt8) : Prop :=
  ∃ r ∈ h.records, h.memory.kind r = .symbol ∧ h.nameBytes r = name

theorem SymbolTable.hasName_iff (ht : h.SymbolTable rs) :
    h.HasName name ↔ ∃ r ∈ rs, h.nameBytes r = name := by
  constructor
  · rintro ⟨r, hr, hk, hname⟩
    exact ⟨r, (ht.mem_iff r).mpr ⟨hr, hk⟩, hname⟩
  · rintro ⟨r, hr, hname⟩
    exact ⟨r, ((ht.mem_iff r).mp hr).1, ((ht.mem_iff r).mp hr).2, hname⟩

theorem SameSymbols.hasName_iff (hsame : SameSymbols h g) : g.HasName name ↔ h.HasName name := by
  constructor
  · rintro ⟨r, hr, hk, hname⟩
    obtain ⟨hr, hk⟩ := (hsame.mem_iff r).mp ⟨hr, hk⟩
    exact ⟨r, hr, hk, (hsame.same r hr hk).nameBytes hk ▸ hname⟩
  · rintro ⟨r, hr, hk, hname⟩
    obtain ⟨hr', hk'⟩ := (hsame.mem_iff r).mpr ⟨hr, hk⟩
    exact ⟨r, hr', hk', ((hsame.same r hr hk).nameBytes hk).trans hname⟩

theorem Indexed.hasName_relocate (ht : h.Indexed) (hs : h.Sound rules)
    (hr : h.Relocation kept place g) : g.HasName name ↔ h.HasName name := by
  obtain ⟨rs, htable⟩ := ht
  obtain ⟨htable', hkept⟩ := htable.relocate hs hr
  rw [htable.hasName_iff, htable'.hasName_iff]
  have hname : ∀ r ∈ rs, g.nameBytes (place r) = h.nameBytes r := fun r hmem =>
    (hr.record r (hkept r hmem)).nameBytes ((htable.mem_iff r).mp hmem).2
  constructor
  · rintro ⟨_, hmoved, heq⟩
    obtain ⟨r, hmem, rfl⟩ := List.mem_map.mp hmoved
    exact ⟨r, hmem, (hname r hmem).symm.trans heq⟩
  · rintro ⟨r, hmem, heq⟩
    exact ⟨place r, List.mem_map_of_mem hmem, (hname r hmem).trans heq⟩

theorem SymbolAdded.top_eq (ha : h.SymbolAdded rules name g) :
    g.top = h.top + symbolSize name.length := by
  obtain ⟨digest, m, -, hhung⟩ := ha.added
  cases hhung <;> rfl

theorem SymbolAdded.hasName_iff {other : List UInt8} (ha : h.SymbolAdded rules name g)
    (hs : h.Sound rules) (ht : h.Indexed) :
    g.HasName other ↔ h.HasName other ∨ other = name := by
  obtain ⟨rs, htable⟩ := ht
  obtain ⟨bs, cs, rfl, htable', hnew, hold⟩ := ha.table hs htable
  rw [htable.hasName_iff, htable'.hasName_iff]
  constructor
  · rintro ⟨r, hmem, heq⟩
    rcases mem_inserted.mp hmem with hmem | rfl
    · exact Or.inl ⟨r, hmem, (hold r hmem).symm.trans heq⟩
    · exact Or.inr (heq.symm.trans hnew)
  · rintro (⟨r, hmem, heq⟩ | rfl)
    · exact ⟨r, mem_inserted.mpr (Or.inl hmem), (hold r hmem).trans heq⟩
    · exact ⟨h.top, mem_inserted.mpr (Or.inr rfl), hnew⟩

variable {n : Nat} {may : Effect → Prop}

/-- No step loses a name, and a step that gives the name of a text a symbol may do so. -/
theorem Change.hasName (hc : h.Change rules n may g) (hs : h.Sound rules) (ht : h.Indexed)
    (name : List UInt8) :
    (h.HasName name → g.HasName name) ∧
      (g.HasName name → h.HasName name ∨
        may (.intern name) ∧ ∃ text : String, name = text.toUTF8.toList) := by
  have hkeeps : (g.HasName name ↔ h.HasName name) → (h.HasName name → g.HasName name) ∧
      (g.HasName name → h.HasName name ∨
        may (.intern name) ∧ ∃ text : String, name = text.toUTF8.toList) := fun hiff =>
    ⟨hiff.mpr, fun hname => Or.inl (hiff.mp hname)⟩
  cases hc with
  | move hmove => exact hkeeps (ht.hasName_relocate hs hmove)
  | roots _ _ _ _ => exact hkeeps Iff.rfl
  | record hm hkind _ => exact hkeeps (hm.sameSymbols hs.wf (by rintro rfl; cases hkind)).hasName_iff
  | field _ hm heffect _ =>
    exact hkeeps (hs.sameSymbols_setField hm (fieldEffect_kinds heffect).2.1).hasName_iff
  | symbol hadded hmay =>
    rw [hadded.hasName_iff hs ht]
    refine ⟨Or.inl, fun hname => hname.imp_right ?_⟩
    rintro rfl
    exact ⟨hmay, hadded.text⟩
  | binding hadded _ => exact hkeeps (hadded.sameSymbols hs).hasName_iff

theorem Evolves.hasName (he : Evolves rules n may h g) (ht : h.Indexed) (name : List UInt8) :
    (h.HasName name → g.HasName name) ∧
      (g.HasName name → h.HasName name ∨
        may (.intern name) ∧ ∃ text : String, name = text.toUTF8.toList) := by
  induction he with
  | refl _ _ => exact ⟨id, Or.inl⟩
  | step hs _ hc _ ih =>
    have hfirst := hc.hasName hs ht name
    have hsecond := ih (hc.indexed hs ht)
    exact ⟨fun hname => hsecond.1 (hfirst.1 hname), fun hname =>
      (hsecond.2 hname).elim hfirst.2 Or.inr⟩

/-- Unless records move, symbols keep their names and the first roots what they hold. -/
theorem Change.still (hc : h.Change rules n may g) (hs : h.Sound rules) (ht : h.Indexed) :
    (∃ kept place, h.Relocation kept place g) ∨
      (∀ i < n, g.root i = h.root i) ∧
        ∀ r ∈ h.records, h.memory.kind r = .symbol → g.nameBytes r = h.nameBytes r := by
  cases hc with
  | move hmove => exact Or.inl ⟨_, _, hmove⟩
  | roots _ _ _ hroot => exact Or.inr ⟨hroot, fun _ _ _ => rfl⟩
  | record hm _ _ =>
    exact Or.inr ⟨fun _ _ => rfl, fun r hr hk => (hm.matches_self hs.wf hr).nameBytes hk⟩
  | field _ hm heffect _ =>
    obtain ⟨-, hsymbol, -⟩ := fieldEffect_kinds heffect
    exact Or.inr ⟨fun _ _ => rfl, fun r hr hk =>
      (hm.matches_other hr fun heq => hsymbol (heq ▸ hk)).nameBytes hk⟩
  | symbol hadded _ =>
    obtain ⟨rs, htable⟩ := ht
    refine Or.inr ⟨fun i _ => ?_, fun r hr hk => ((hadded.sameScopes hs htable).symbol _ hr hk).2⟩
    rw [Heap.root, hadded.roots_eq]
    rfl
  | binding hadded _ =>
    refine Or.inr ⟨fun i _ => ?_, fun r hr hk =>
      ((hadded.sameSymbols hs).same _ hr hk).nameBytes hk⟩
    rw [Heap.root, hadded.roots_eq]
    rfl

/-- A new symbol changes nothing but links among symbols. -/
theorem SymbolAdded.same (ha : h.SymbolAdded rules name g) (hs : h.Sound rules)
    (ht : h.SymbolTable rs) (hr : r ∈ h.records) (hk : h.memory.kind r ≠ .symbol) :
    Matches Eq h.memory r g.memory r := by
  obtain ⟨digest, m, hm, hhung⟩ := ha.added
  have hsame := hm.matches_self hs.wf hr
  cases hhung with
  | first _ => exact hsame
  | below hlink hset =>
    have ho := hm.outside hs ht ha.missing
    refine hsame.eq_comp (hset.matches_other (hm.lasts hs.wf hr).mem ?_)
    rintro rfl
    exact hk (hsame.kind.symm.trans
      ((ho.mem_iff _).mp (Or.inl (ho.link_mem (hm.sound hs) hlink).1)).2)

/-- Unless records move, all records keep their kinds. -/
theorem Change.lasts (hc : h.Change rules n may g) (hs : h.Sound rules) :
    (∃ kept place, h.Relocation kept place g) ∨ ∀ r ∈ h.records, Lasts h r g := by
  cases hc with
  | move hmove => exact Or.inl ⟨_, _, hmove⟩
  | roots _ _ _ _ => exact Or.inr fun r hr => ⟨hr, rfl, rfl⟩
  | record hm _ _ => exact Or.inr fun r hr => hm.lasts hs.wf hr
  | field _ hm _ _ => exact Or.inr fun r hr => hs.lasts_setField hm hr
  | symbol hadded _ => exact Or.inr fun r hr => hadded.lasts hs hr
  | binding hadded _ => exact Or.inr fun r hr => hadded.lasts hs hr

/-- Unless records move, a step that updates nothing leaves all data as they are. -/
theorem Change.data (hc : h.Change rules n may g) (hs : h.Sound rules) (ht : h.Indexed)
    (hmay : ¬ may .update) :
    (∃ kept place, h.Relocation kept place g) ∨
      ∀ r ∈ h.records, (h.memory.kind r).inTrees = false → Matches Eq h.memory r g.memory r := by
  cases hc with
  | move hmove => exact Or.inl ⟨_, _, hmove⟩
  | roots _ _ _ _ =>
    exact Or.inr fun r hr hk => .of_sameBody (.refl _ _) rfl fun _ _ => Or.inr rfl
  | record hm _ _ => exact Or.inr fun r hr hk => hm.matches_self hs.wf hr
  | field _ hm heffect hallowed =>
    refine Or.inr fun r hr hk => hm.matches_other hr ?_
    rintro rfl
    unfold fieldEffect at heffect
    cases hkind : h.memory.kind r <;> rw [hkind] at hk heffect <;> cases hk <;> cases heffect <;>
      exact hmay hallowed
  | symbol hadded _ =>
    obtain ⟨rs, htable⟩ := ht
    exact Or.inr fun r hr hk => hadded.same hs htable hr fun heq => by rw [heq] at hk; cases hk
  | binding hadded _ =>
    obtain ⟨node, side, hp, -, hholds⟩ := hadded.exists_put hs
    refine Or.inr fun r hr hk => hp.same hr ?_
    rintro rfl
    rcases hholds with ⟨hkind, -⟩ | ⟨hkind, -⟩ <;> rw [hkind] at hk <;> cases hk

/-- Unless records move, a step that updates nothing leaves the first roots, all data and all names
as they are. -/
theorem Change.same (hc : h.Change rules n may g) (hs : h.Sound rules) (ht : h.Indexed)
    (hmay : ¬ may .update) :
    (∃ kept place, h.Relocation kept place g) ∨
      (∀ i < n, g.root i = h.root i) ∧ Carries Eq h g := by
  rcases hc.still hs ht with hmove | ⟨hroot, hname⟩
  · exact Or.inl hmove
  rcases hc.lasts hs with hmove | hlasts
  · exact Or.inl hmove
  rcases hc.data hs ht hmay with hmove | hdata
  · exact Or.inl hmove
  refine Or.inr ⟨hroot, ?_, ?_⟩
  · rintro r hr _ rfl hk
    exact hdata r hr hk
  · rintro r hr _ rfl hk
    exact ⟨(hlasts r hr).kind.trans hk, hname r hr hk⟩

/-- Moving records moves their data. -/
theorem Relocation.carries (hr : h.Relocation kept place g) : Carries (Goes kept place) h g where
  data := by
    rintro r - _ ⟨hkept, rfl⟩ -
    exact hr.record r hkept
  symbol := by
    rintro r - _ ⟨hkept, rfl⟩ hk
    exact ⟨(hr.record r hkept).kind.trans hk, (hr.record r hkept).nameBytes hk⟩

/-- The roots that stay in place keep leading to the symbols they lead to. -/
theorem Change.nameBytes_root (hc : h.Change rules n may g) (hs : h.Sound rules) (ht : h.Indexed)
    (hn : n ≤ h.roots.size) (hi : i < n) (hk : h.memory.kind (h.root i) = .symbol) :
    g.nameBytes (g.root i) = h.nameBytes (h.root i) := by
  have hlt : i < h.roots.size := Nat.lt_of_lt_of_le hi hn
  rcases hc.still hs ht with ⟨kept, place, hmove⟩ | ⟨hroot, hsame⟩
  · rw [hmove.root_eq hlt]
    exact (hmove.record _ (hmove.root _ (root_mem hlt))).nameBytes hk
  · rw [hroot i hi]
    exact hsame _ (hs.wf.root _ (root_mem hlt)) hk

/-- Pinned symbols keep their names. -/
theorem Change.nameBytes_pinned (hc : h.Change rules n may g) (hs : h.Sound rules) (ht : h.Indexed)
    (hr : r ∈ h.records) (hpin : h.memory.isPinned r = true) (hk : h.memory.kind r = .symbol) :
    g.nameBytes r = h.nameBytes r := by
  rcases hc.still hs ht with ⟨kept, place, hmove⟩ | ⟨-, hsame⟩
  · have hname := (hmove.record r (hmove.pinned r hr hpin)).nameBytes hk
    rw [hs.place_pinned hmove hr hpin] at hname
    exact hname
  · exact hsame r hr hk

theorem Evolves.nameBytes_pinned (he : Evolves rules n may h g) (ht : h.Indexed)
    (hr : r ∈ h.records) (hpin : h.memory.isPinned r = true) (hk : h.memory.kind r = .symbol) :
    g.nameBytes r = h.nameBytes r := by
  induction he with
  | refl _ _ => rfl
  | step hs _ hc _ ih =>
    have hl := hc.pinned hs hr hpin
    exact (ih (hc.indexed hs ht) hl.mem (hl.pinned.trans hpin) (hl.kind.trans hk)).trans
      (hc.nameBytes_pinned hs ht hr hpin hk)

theorem Evolves.symbol_root (he : Evolves rules n may h g) (ht : h.Indexed) (hi : i < n)
    (hk : h.memory.kind (h.root i) = .symbol) :
    g.memory.kind (g.root i) = .symbol ∧ g.nameBytes (g.root i) = h.nameBytes (h.root i) := by
  induction he with
  | refl _ _ => exact ⟨hk, rfl⟩
  | step hs hn hc _ ih =>
    obtain ⟨hkind, hname⟩ := ih (hc.indexed hs ht) ((hc.kind hs hn hi).trans hk)
    exact ⟨hkind, hname.trans (hc.nameBytes_root hs ht hn hi hk)⟩

/-! How interning ends. -/

theorem symbolName_eq_ok_iff :
    h.symbolName r = .ok text ↔ h.memory.kind r = .symbol ∧ Text.decode (h.nameBytes r) = text := by
  unfold symbolName expectSymbol expectKind kind
  by_cases hk : h.memory.kind r = .symbol
  · rw [if_pos hk]
    exact ⟨fun heq => ⟨hk, Except.ok.inj heq⟩, fun heq => congrArg Except.ok heq.2⟩
  · rw [if_neg hk]
    exact ⟨(fun heq => nomatch heq), fun heq => absurd heq.1 hk⟩

theorem symbolName_eq_ok (hk : h.memory.kind r = .symbol)
    (hname : h.nameBytes r = text.toUTF8.toList) : h.symbolName r = .ok text := by
  rw [symbolName_eq_ok_iff, hname, Text.decode_toUTF8]
  exact ⟨hk, rfl⟩

/-- A name that has a symbol is found, and nothing else happens. -/
theorem Indexed.intern_known (ht : h.Indexed) (hs : h.Sound rules)
    (hname : h.HasName text.toUTF8.toList) :
    ∃ r, HeapM.intern text h = .ok r h ∧ r ∈ h.records ∧ h.memory.kind r = .symbol ∧
      h.nameBytes r = text.toUTF8.toList := by
  obtain ⟨rs, htable⟩ := ht
  obtain ⟨r, hmem, heq⟩ := htable.hasName_iff.mp hname
  have hfind := (htable.findSymbol_eq_some_iff hs).mpr ⟨hmem, heq⟩
  refine ⟨r, ?_, ((htable.mem_iff r).mp hmem).1, ((htable.mem_iff r).mp hmem).2, heq⟩
  unfold HeapM.intern HeapM.internWith
  rw [HeapM.get_bind, hfind]
  rfl

/-- A symbol that interning gives has the name. -/
theorem Interns.nameBytes {bytes : List UInt8} (hi : h.Interns rules bytes (.ok r g))
    (hs : h.Sound rules) (ht : h.Indexed) : g.nameBytes r = bytes := by
  cases hi with
  | found hfind =>
    obtain ⟨rs, htable⟩ := ht
    exact ((htable.findSymbol_eq_some_iff hs).mp hfind).2
  | added _ hr hadded _ =>
    obtain ⟨rs, htable⟩ := ht
    obtain ⟨htable', -⟩ := htable.relocate hs hr
    obtain ⟨-, -, -, -, hname, -⟩ := hadded.table (hs.relocate hr) htable'
    exact hname

/-- The heap to start from has no symbols and no frames. -/
theorem Tidy.new (capacity : Nat) : (Heap.new capacity).Tidy := by
  have hkind : ∀ r ∈ (Heap.new capacity).records, ∃ p ∈ fixtures,
      (Heap.new capacity).memory.kind r = p.2 := by
    intro r hr
    obtain ⟨p, hp, rfl⟩ := mem_records_new hr
    exact ⟨p, hp, kind_new capacity hp⟩
  have hnone : ∀ r ∈ (Heap.new capacity).records,
      (Heap.new capacity).memory.kind r ≠ .symbol ∧
      (Heap.new capacity).memory.kind r ≠ .environment ∧
      (Heap.new capacity).memory.kind r ≠ .binding := by
    intro r hr
    obtain ⟨p, hp, hk⟩ := hkind r hr
    have hplain : ∀ p ∈ fixtures, p.2 ≠ Kind.symbol ∧ p.2 ≠ Kind.environment ∧
        p.2 ≠ Kind.binding := by decide
    rw [hk]
    exact hplain p hp
  refine ⟨⟨[], .empty, .nil, fun r => ⟨(fun hr => nomatch hr), fun hr => ?_⟩⟩, fun f hf hk => ?_,
    fun f hf _ _ hk => ?_, fun _ b hb hk => ?_⟩
  · exact absurd hr.2 (hnone r hr.1).1
  · exact absurd hk (hnone f hf).2.1
  · exact absurd hk (hnone f hf).2.1
  · exact absurd hk (hnone b hb).2.2

theorem not_hasName_new (capacity : Nat) : ¬ (Heap.new capacity).HasName name := by
  rintro ⟨r, hr, hk, -⟩
  obtain ⟨p, hp, rfl⟩ := mem_records_new hr
  have hplain : ∀ p ∈ fixtures, p.2 ≠ Kind.symbol := by decide
  exact hplain p hp ((kind_new capacity hp).symm.trans hk)

end Heap

/-! Runs. -/

namespace HeapOp

variable {h : Heap} {op : HeapOp} {ops : List HeapOp}

/-- The name that an operation interns, if it does. -/
def interned (h : Heap) : HeapOp → List String
  | intern name =>
    match HeapM.intern name h with
    | .ok _ _ => [name]
    | .error _ _ => []
  | _ => []

/-- The names that are interned in the course of a run. -/
def internedNames : Heap → List HeapOp → List String
  | _, [] => []
  | h, op :: ops => op.interned h ++ internedNames (op.apply h) ops

/-- Whether a root stays in place in the course of a run. -/
def KeepsSlot : Heap → List HeapOp → Slot → Prop
  | h, [], i => i < h.roots.size
  | h, op :: ops, i => i < op.keeps h ∧ KeepsSlot (op.apply h) ops i

instance decidableKeepsSlot :
    (h : Heap) → (ops : List HeapOp) → (i : Slot) → Decidable (KeepsSlot h ops i)
  | h, [], i => inferInstanceAs (Decidable (i < h.roots.size))
  | h, op :: ops, i =>
    haveI := decidableKeepsSlot (op.apply h) ops i
    inferInstanceAs (Decidable (i < op.keeps h ∧ KeepsSlot (op.apply h) ops i))

theorem intern_or (op : HeapOp) (h : Heap) :
    (∃ name, op = .intern name) ∨
      ((∀ name, ¬ op.may (.intern name)) ∧ op.interned h = []) := by
  cases op
  case intern name => exact Or.inl ⟨name, rfl⟩
  all_goals exact Or.inr ⟨(fun _ hmay => nomatch hmay), rfl⟩

section

variable (hs : h.Sound Rules.bare) (ht : h.Tidy)
include hs ht

/-- The names after an operation are those before it and the one that was interned. -/
theorem hasName_apply (hop : op.Valid h) {name : List UInt8} :
    (op.apply h).HasName name ↔
      h.HasName name ∨ ∃ text ∈ op.interned h, text.toUTF8.toList = name := by
  rcases op.intern_or h with ⟨text, rfl⟩ | ⟨hmay, hnone⟩
  · have hi := HeapM.interns hs Text.digest text
    have hcases : h.after (HeapM.intern text) = h.after (HeapM.internWith Text.digest text) := rfl
    rw [apply, hcases, interned, HeapM.intern]
    unfold Heap.after
    generalize HeapM.internWith Text.digest text h = result at hi ⊢
    obtain ⟨rs, htable⟩ := ht.table
    cases hi with
    | @found r hfind =>
      simp only [List.mem_singleton, exists_eq_left]
      refine ⟨Or.inl, fun hname => hname.elim id ?_⟩
      rintro rfl
      exact htable.hasName_iff.mpr ⟨r, (htable.findSymbol_eq_some_iff hs).mp hfind⟩
    | added _ hr hadded _ =>
      simp only [List.mem_singleton, exists_eq_left]
      rw [hadded.hasName_iff (hs.relocate hr) ⟨_, (htable.relocate hs hr).1⟩,
        ht.table.hasName_relocate hs hr, eq_comm (a := name)]
    | tooLarge _ _ =>
      simp only [List.not_mem_nil, false_and, exists_false, or_false]
    | exhausted _ _ _ hr =>
      simp only [List.not_mem_nil, false_and, exists_false, or_false]
      exact ht.table.hasName_relocate hs hr
  · rw [hnone]
    simp only [List.not_mem_nil, false_and, exists_false, or_false]
    obtain ⟨hkept, hnew⟩ := (evolves hs hop).hasName ht.table name
    exact ⟨fun hname => (hnew hname).resolve_right fun hnew => hmay name hnew.1, hkept⟩

theorem tidy (hop : op.Valid h) : (op.apply h).Tidy :=
  (evolves hs hop).tidy rfl ht

/-- What a run makes of a heap whose trees are in order. -/
theorem run_tidy (hops : ValidRun h ops) :
    (ops.foldl apply h).Sound Rules.bare ∧ (ops.foldl apply h).Tidy ∧ ∀ name,
      (ops.foldl apply h).HasName name ↔
        h.HasName name ∨ ∃ text ∈ internedNames h ops, text.toUTF8.toList = name := by
  induction ops generalizing h with
  | nil => exact ⟨hs, ht, fun name => by simp [internedNames]⟩
  | cons op ops ih =>
    obtain ⟨hs', ht', hnames⟩ := ih (sound hs hops.1) (tidy hs ht hops.1) hops.2
    refine ⟨hs', ht', fun name => ?_⟩
    rw [List.foldl_cons, hnames, hasName_apply hs ht hops.1, internedNames]
    simp only [List.mem_append, or_and_right, exists_or, or_assoc]

/-- A symbol in a root that stays in place keeps its name. -/
theorem run_symbol (hops : ValidRun h ops) (hi : KeepsSlot h ops i)
    (hk : h.memory.kind (h.root i) = .symbol) :
    (ops.foldl apply h).memory.kind ((ops.foldl apply h).root i) = .symbol ∧
      (ops.foldl apply h).nameBytes ((ops.foldl apply h).root i) = h.nameBytes (h.root i) := by
  induction ops generalizing h with
  | nil => exact ⟨hk, rfl⟩
  | cons op ops ih =>
    obtain ⟨hkind, hname⟩ := (evolves hs hops.1).symbol_root ht.table hi.1 hk
    obtain ⟨hkind', hname'⟩ := ih (sound hs hops.1) (tidy hs ht hops.1) hops.2 hi.2 hkind
    exact ⟨hkind', hname'.trans hname⟩

end

theorem lt_roots_of_keepsSlot (hs : h.Sound Rules.bare) (hops : ValidRun h ops)
    (hi : KeepsSlot h ops i) : i < h.roots.size := by
  cases ops with
  | nil => exact hi
  | cons op ops => exact Nat.lt_of_lt_of_le hi.1 (evolves hs hops.1).size_left

theorem lt_size_of_keepsSlot (hi : KeepsSlot h ops i) : i < (ops.foldl apply h).roots.size := by
  induction ops generalizing h with
  | nil => exact hi
  | cons op ops ih => exact ih hi.2

end HeapOp

/-- In `h` the given names have symbols, one each, and interning gives them. -/
structure Heap.Interned (h : Heap) (names : List String) : Prop where
  /-- The symbol table is a search tree of all symbols, of which each name has one. -/
  table : ∃ rs, h.SymbolTable rs ∧ (∀ r ∈ rs, ∃ name ∈ names, h.symbolName r = .ok name) ∧
    ∀ name ∈ names, ∃ r ∈ rs, ∀ s ∈ rs, h.symbolName s = .ok name ↔ s = r
  known : ∀ name ∈ names, ∃ r, HeapM.intern name h = .ok r h ∧ h.symbolName r = .ok name
  same : ∀ name ∈ names, ∀ name' ∈ names, ∀ r r', HeapM.intern name h = .ok r h →
    HeapM.intern name' h = .ok r' h → (r = r' ↔ name = name')
  /-- A new name gets a symbol, unless there can be no room for it. -/
  new : ∀ name ∉ names, ∀ size, size = symbolSize name.toUTF8.toList.length →
    (∃ r g, HeapM.intern name h = .ok r g ∧ g.symbolName r = .ok name) ∨
    (maxSize < size ∧ HeapM.intern name h = .error (.recordTooLarge size) h) ∨
    ∃ live g, h.LiveBytes (#v[] : Vector Ref 0) live ∧ maxSize < live + size ∧
      HeapM.intern name h = .error (.heapExhausted size) g

theorem Heap.Tidy.interned {names : List String} (ht : h.Tidy) (hs : h.Sound Rules.bare)
    (hnames : ∀ bytes, h.HasName bytes ↔ ∃ name ∈ names, name.toUTF8.toList = bytes) :
    h.Interned names := by
  have hknown : ∀ name ∈ names, ∃ r, HeapM.intern name h = .ok r h ∧ r ∈ h.records ∧
      h.memory.kind r = .symbol ∧ h.nameBytes r = name.toUTF8.toList := fun name hmem =>
    ht.table.intern_known hs ((hnames _).mpr ⟨name, hmem, rfl⟩)
  obtain ⟨rs, htable⟩ := ht.table
  have hspelled : ∀ r ∈ rs, ∃ name ∈ names, name.toUTF8.toList = h.nameBytes r := fun r hr =>
    (hnames _).mp (htable.hasName_iff.mpr ⟨r, hr, rfl⟩)
  have hkind : ∀ r ∈ rs, h.memory.kind r = .symbol := fun r hr => ((htable.mem_iff r).mp hr).2
  refine ⟨⟨rs, htable, fun r hr => ?_, fun name hmem => ?_⟩, fun name hmem => ?_, ?_, ?_⟩
  · obtain ⟨name, hmem, heq⟩ := hspelled r hr
    exact ⟨name, hmem, symbolName_eq_ok (hkind r hr) heq.symm⟩
  · obtain ⟨r, -, hr, hk, hname⟩ := hknown name hmem
    have hr' := (htable.mem_iff r).mpr ⟨hr, hk⟩
    refine ⟨r, hr', fun s hs' => ⟨fun heq => ?_, fun heq => heq ▸ symbolName_eq_ok hk hname⟩⟩
    obtain ⟨other, -, hother⟩ := hspelled s hs'
    have hsame : Text.decode (h.nameBytes s) = name := (symbolName_eq_ok_iff.mp heq).2
    rw [← hother, Text.decode_toUTF8] at hsame
    subst hsame
    exact htable.eq_of_nameBytes hs hs' hr' (hother.symm.trans hname.symm)
  · obtain ⟨r, hrun, -, hk, hname⟩ := hknown name hmem
    exact ⟨r, hrun, symbolName_eq_ok hk hname⟩
  · intro name hmem name' hmem' r r' hrun hrun'
    obtain ⟨s, hs1, -, -, hname⟩ := hknown name hmem
    obtain ⟨s', hs2, -, -, hname'⟩ := hknown name' hmem'
    rw [hrun] at hs1
    rw [hrun'] at hs2
    cases hs1
    cases hs2
    refine ⟨?_, ?_⟩
    · rintro rfl
      exact Text.toUTF8_injective (hname.symm.trans hname')
    · rintro rfl
      rw [hrun] at hrun'
      cases hrun'
      rfl
  · rintro name hnot size rfl
    have hi := HeapM.interns hs Text.digest name
    rw [HeapM.intern]
    generalize HeapM.internWith Text.digest name h = result at hi ⊢
    cases hi with
    | @found r hfind =>
      obtain ⟨hmem, heq⟩ := (htable.findSymbol_eq_some_iff hs).mp hfind
      obtain ⟨other, hother, heq'⟩ := hspelled r hmem
      exact absurd (Text.toUTF8_injective (heq'.trans heq) ▸ hother) hnot
    | @added kept place k g _ hr hadded _ =>
      have htable' := (htable.relocate hs hr).1
      obtain ⟨_, _, -, htable'', hname, -⟩ := hadded.table (hs.relocate hr) htable'
      have hk := ((htable''.mem_iff k.top).mp (mem_inserted.mpr (Or.inr rfl))).2
      exact Or.inl ⟨k.top, g, rfl, symbolName_eq_ok hk hname⟩
    | tooLarge _ hsize => exact Or.inr (Or.inl ⟨hsize, rfl⟩)
    | exhausted _ hlive hgt _ => exact Or.inr (Or.inr ⟨_, _, hlive, hgt, rfl⟩)

/-- The symbol that a root leads to is what interning its name gives. -/
theorem Heap.Indexed.intern_root {rules : Rules} {name : String} (ht : h.Indexed)
    (hs : h.Sound rules) (hi : i < h.roots.size) (hk : h.memory.kind (h.root i) = .symbol)
    (hname : h.nameBytes (h.root i) = name.toUTF8.toList) :
    HeapM.intern name h = .ok (h.root i) h := by
  have hmem : h.root i ∈ h.records := hs.wf.root _ (root_mem hi)
  have ht' := ht
  obtain ⟨rs, htable⟩ := ht
  obtain ⟨r, hrun, hr, hkind, heq⟩ := ht'.intern_known hs ⟨_, hmem, hk, hname⟩
  rw [hrun, htable.eq_of_nameBytes hs ((htable.mem_iff r).mpr ⟨hr, hkind⟩)
    ((htable.mem_iff _).mpr ⟨hmem, hk⟩) (heq.trans hname.symm)]

/-- Whatever is done with a heap, each name that was interned has one symbol, and as long as a root
leads to it, interning the name gives what the root holds. -/
theorem symbols_interned {size : UInt32} {ops : List HeapOp}
    (hops : HeapOp.ValidRun (Heap.new size.toNat) ops) :
    let h := ops.foldl HeapOp.apply (Heap.new size.toNat)
    h.Interned (HeapOp.internedNames (Heap.new size.toNat) ops) ∧
      ∀ more i name, HeapOp.ValidRun h more → HeapOp.KeepsSlot h more i →
        h.symbolName (h.root i) = .ok name →
        HeapM.intern name (more.foldl HeapOp.apply h) =
          .ok ((more.foldl HeapOp.apply h).root i) (more.foldl HeapOp.apply h) := by
  have hs : (Heap.new size.toNat).Sound Rules.bare := .new (Nat.le_of_lt_succ size.toNat_lt) Rules.bare
  obtain ⟨hs', ht, hnames⟩ := HeapOp.run_tidy hs (.new _) hops
  have hnames' : ∀ bytes, (ops.foldl HeapOp.apply (Heap.new size.toNat)).HasName bytes ↔
      ∃ name ∈ HeapOp.internedNames (Heap.new size.toNat) ops, name.toUTF8.toList = bytes :=
    fun bytes => by rw [hnames, or_iff_right (not_hasName_new _)]
  refine ⟨ht.interned hs' hnames', fun more i name hmore hkeeps hname => ?_⟩
  generalize ops.foldl HeapOp.apply (Heap.new size.toNat) = h at *
  obtain ⟨hk, hname⟩ := symbolName_eq_ok_iff.mp hname
  obtain ⟨hg, htg, -⟩ := HeapOp.run_tidy hs' ht hmore
  obtain ⟨hkind, hbytes⟩ := HeapOp.run_symbol hs' ht hmore hkeeps hk
  have hmem : h.root i ∈ h.records :=
    hs'.wf.root _ (root_mem (HeapOp.lt_roots_of_keepsSlot hs' hmore hkeeps))
  obtain ⟨text, -, htext⟩ := (hnames' _).mp ⟨_, hmem, hk, rfl⟩
  rw [← htext, Text.decode_toUTF8] at hname
  subst hname
  exact htg.table.intern_root hg (HeapOp.lt_size_of_keepsSlot hkeeps) hkind (hbytes.trans htext.symm)

/-- Two names are interned, one of them empty, and then the first symbol moves. -/
theorem symbols_interned_sample :
    let ops : List HeapOp := [.integer 7, .intern "λ", .pushRoot 33, .intern ""]
    let more : List HeapOp := [.collect, .intern "b"]
    let h := ops.foldl HeapOp.apply (Heap.new 0)
    HeapOp.ValidRun (Heap.new 0) ops ∧ h.Interned ["λ", ""] ∧ h.root 0 = 33 ∧
      HeapM.intern "λ" (more.foldl HeapOp.apply h) = .ok 20 (more.foldl HeapOp.apply h) := by
  intro ops more h
  have hdecided : (HeapOp.ValidRun (Heap.new 0) ops ∧
      HeapOp.internedNames (Heap.new 0) ops = ["λ", ""] ∧ h.root 0 = 33 ∧
      h.memory.kind (h.root 0) = .symbol ∧ h.nameBytes (h.root 0) = "λ".toUTF8.toList) ∧
      HeapOp.ValidRun h more ∧ HeapOp.KeepsSlot h more 0 ∧
      (more.foldl HeapOp.apply h).root 0 = 20 := by decide +kernel
  obtain ⟨⟨hops, hnames, hroot, hk, hname⟩, hmore, hkeeps, hplace⟩ := hdecided
  obtain ⟨hinterned, hlater⟩ := @symbols_interned 0 ops hops
  refine ⟨hops, hnames ▸ hinterned, hroot, ?_⟩
  rw [← hplace]
  exact hlater more 0 "λ" hmore hkeeps (symbolName_eq_ok hk hname)

end ArenaScheme
