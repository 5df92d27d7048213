import ArenaScheme.Proofs.Outlines
import ArenaScheme.Proofs.Printing

/-! The text of a value is the text of its datum, and a value whose copy is readable shows it. -/

namespace ArenaScheme

open Memory Heap

namespace Datum

mutual

/-- The outline of a tree: nothing is cut off, and a tagged value is written without its tag. -/
def outline : Datum → Outline
  | pair car cdr => .pair (outline car) (outline cdr)
  | vector items => .vector (outlines items)
  | tagged _ value => .tagged (outline value)
  | d => .leaf d

def outlines : List Datum → List Outline
  | [] => []
  | d :: items => outline d :: outlines items

end

theorem outlines_eq_map (items : List Datum) : outlines items = items.map outline := by
  induction items with
  | nil => rfl
  | cons d items ih => rw [outlines, ih, List.map_cons]

end Datum

namespace Heap

variable {rules : Rules} {h : Heap} {r : Nat} {d : Datum} {path : Std.TreeSet Ref} {fuel : Nat}
  {outer : List Ref}

theorem Shows.outlines (hd : h.Shows r d) (hinside : h.Inside outer d) :
    h.Outlines outer r d.outline := by
  induction hd generalizing outer with
  | @plain r d ho =>
    have hleaf : d.outline = .leaf d := by
      cases hobject : h.object r <;> rw [hobject] at ho <;> cases ho <;> rfl
    rw [hleaf]
    refine .leaf ?_
    unfold leaf?
    cases hobject : h.object r <;> rw [hobject] at ho <;> first | exact ho | cases ho
  | symbol ho => exact .leaf (by rw [leaf?, object_of_symbolName ho]; simp only [ho]; rfl)
  | string ho => exact .leaf (by rw [leaf?, object_of_stringValue ho]; simp only [ho]; rfl)
  | pair ho hcar hcdr ihcar ihcdr =>
    have hd := Shows.pair ho hcar hcdr
    exact .pair (hinside.not_mem hd) ho
      (ihcar (hinside.cons hd (by simp only [Datum.pair.sizeOf_spec]; omega)))
      (ihcdr (hinside.cons hd (by simp only [Datum.pair.sizeOf_spec]; omega)))
  | @vector r items ho hitems ih =>
    have hd := Shows.vector ho hitems
    rw [Datum.outline, Datum.outlines_eq_map]
    refine .vector (hinside.not_mem hd) (by rw [List.length_map, ho]) fun i hi => ?_
    rw [List.length_map] at hi
    rw [List.getElem_map]
    refine ih i hi (hinside.cons hd ?_)
    have := List.sizeOf_lt_of_mem (List.getElem_mem hi)
    simp only [Datum.vector.sizeOf_spec]
    omega

/-- Of what a record shows, the outline has the text of the datum. -/
theorem Shows.text_outline (hd : h.Shows r d) :
    d.outline.text .write = d.print ∧ d.outline.tailText .write = d.printTail := by
  induction hd with
  | @plain r d ho =>
    cases hobject : h.object r <;> rw [hobject] at ho <;> cases ho
    case boolean.refl value => cases value <;> exact ⟨rfl, rfl⟩
    all_goals exact ⟨rfl, rfl⟩
  | symbol | string => exact ⟨rfl, rfl⟩
  | pair _ _ _ ihcar ihcdr =>
    rw [Datum.outline, Outline.text, Outline.tailText, Datum.print, Datum.printTail, ihcar.1, ihcdr.2]
    exact ⟨rfl, rfl⟩
  | @vector r items _ _ ih =>
    have hrest : ∀ items : List Datum, (∀ d ∈ items, d.outline.text .write = d.print) →
        Outline.itemsText .write (Datum.outlines items) = Datum.printItems items ∧
          Outline.restText .write (Datum.outlines items) = Datum.printRest items := by
      intro items hitems
      induction items with
      | nil => exact ⟨rfl, rfl⟩
      | cons d items ih =>
        obtain ⟨hd, hitems⟩ := List.forall_mem_cons.mp hitems
        rw [Datum.outlines, Outline.itemsText, Outline.restText, Datum.printItems, Datum.printRest, hd,
          (ih hitems).2]
        exact ⟨rfl, rfl⟩
    have hitems := (hrest items fun d hd => by
      obtain ⟨i, hi, rfl⟩ := List.mem_iff_getElem.mp hd
      exact (ih i hi).1).1
    rw [Datum.outline, Outline.text, Outline.tailText, Datum.print, Datum.printTail, hitems]
    exact ⟨rfl, rfl⟩

/-- What is written of a value is the text of what it shows. -/
theorem Shows.write_eq (hd : h.Shows r d) (hs : h.Sound rules) (hr : r ∈ h.records) :
    h.write r = String.ofList d.print := by
  have htext := ((hd.outlines (.empty d)).textFrom_eq hs hr .empty .write).1
    (Nat.mul_le_mul_left 2 (depth_le hs hr)) ""
  rw [String.empty_append, hd.text_outline.1] at htext
  exact htext

/-! A value whose copy is readable shows it. -/

theorem forall₂_of_mapM {α β : Type} {f : α → Except Fault β} {l : List α} {items : List β}
    (hmap : l.mapM f = .ok items) : List.Forall₂ (fun a b => f a = .ok b) l items := by
  induction l generalizing items with
  | nil =>
    cases hmap
    exact .nil
  | cons x l ih =>
    rw [List.mapM_cons] at hmap
    cases hfirst : f x with
    | error fault =>
      rw [hfirst] at hmap
      cases hmap
    | ok y =>
      cases hrest : l.mapM f with
      | error fault =>
        rw [hfirst, hrest] at hmap
        cases hmap
      | ok ys =>
        rw [hfirst, hrest] at hmap
        cases hmap
        exact .cons hfirst (ih hrest)

/-- A record whose copy is readable shows it. -/
theorem shows_of_datumFrom (hs : h.Sound rules) (hd : d.Readable) (hr : r ∈ h.records)
    (hcopy : h.datumFrom fuel path r = .ok d) : h.Shows r d := by
  induction fuel generalizing r d path with
  | zero => cases hcopy
  | succ fuel ih =>
    rw [datumFrom] at hcopy
    cases hobject : h.object r <;> simp only [hobject] at hcopy
    case symbol =>
      cases hname : h.symbolName r <;> rw [hname] at hcopy <;> cases hcopy
      exact .symbol hname
    case string =>
      cases htext : h.stringValue r <;> rw [htext] at hcopy <;> cases hcopy
      exact .string htext
    case pair car cdr =>
      obtain ⟨hk, hcar, hcdr⟩ := kind_of_pair hobject
      have hmem : car ∈ h.records := hcar ▸ hs.pair_field_mem hr hk (k := 0) (by decide)
      have hmem' : cdr ∈ h.records := hcdr ▸ hs.pair_field_mem hr hk (k := 1) (by decide)
      split at hcopy
      · cases hcopy
      cases hfirst : h.datumFrom fuel (path.insert r) car <;> rw [hfirst] at hcopy
      · cases hcopy
      cases hsecond : h.datumFrom fuel (path.insert r) cdr <;> rw [hsecond] at hcopy <;> cases hcopy
      cases hd with
      | pair ha hb => exact .pair hobject (ih ha hmem hfirst) (ih hb hmem' hsecond)
    case vector length =>
      rw [Nat.min_eq_left (length_le hs hr hobject)] at hcopy
      split at hcopy
      · cases hcopy
      cases hmap : (List.range length).mapM
          (fun i => h.datumFrom fuel (path.insert r) (h.field r (1 + i))) <;>
        rw [hmap] at hcopy <;> cases hcopy
      have hcopies := forall₂_of_mapM hmap
      have hlength := hcopies.length_eq
      rw [List.length_range] at hlength
      subst hlength
      cases hd with
      | vector hparts =>
        refine .vector hobject fun i hi => ?_
        have hpart := hcopies.get (by simpa using hi) hi
        simp only [List.get_eq_getElem, List.getElem_range] at hpart
        exact ih (hparts _ (List.getElem_mem hi)) (field_mem_vector hs hr hobject hi) hpart
    case builtin | closure =>
      cases hname : h.procedureName r <;> rw [hname] at hcopy <;> cases hcopy
      cases hd
    case environment | binding =>
      cases hcopy
      cases hd
    case tagged marker value =>
      cases hmarker : h.datumFrom fuel path marker <;> rw [hmarker] at hcopy
      · cases hcopy
      cases hvalue : h.datumFrom fuel path value <;> rw [hvalue] at hcopy <;> cases hcopy
      cases hd
    all_goals
      cases hcopy
      exact .plain (by rw [hobject]; rfl)

end Heap

end ArenaScheme
