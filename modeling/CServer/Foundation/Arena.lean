import Mathlib.Data.List.Basic
import Mathlib.Data.List.Pairwise
import Mathlib.Order.Lattice
import Mathlib.Tactic.Cases

/-!
# Areas that are filled from the front

An area of memory starts with a header; behind it pieces are carved out, each behind all earlier
ones. Several areas, and allocations of their own, share one memory in which their regions do not
meet. The rules below carve a piece out of an area, add an area or an allocation, and give an
allocation back.
-/
namespace CServer.Arena

/-- The bytes from `start`, `size` of them. -/
structure Range where
  start : ℕ
  size : ℕ
  deriving DecidableEq

def Range.Apart (r r' : Range) : Prop :=
  r.start + r.size ≤ r'.start ∨ r'.start + r'.size ≤ r.start

instance (r r' : Range) : Decidable (r.Apart r') :=
  inferInstanceAs (Decidable (_ ∨ _))

def Range.Within (r r' : Range) : Prop :=
  r'.start ≤ r.start ∧ r.start + r.size ≤ r'.start + r'.size

theorem Range.Apart.symm {r r' : Range} (h : r.Apart r') : r'.Apart r := Or.symm h

theorem Range.Apart.within {r r' q q' : Range} (h : r.Apart r') (hq : q.Within r)
    (hq' : q'.Within r') : q.Apart q' := by
  unfold Range.Apart Range.Within at *
  omega

/-- A region from `start` to `limit`, whose pieces lie from `first` on and before `last`. -/
structure Area where
  start : ℕ
  first : ℕ
  last : ℕ
  limit : ℕ

def Area.region (a : Area) : Range := ⟨a.start, a.limit - a.start⟩

/-- The bytes before the first piece. -/
def Area.header (a : Area) : Range := ⟨a.start, a.first - a.start⟩

structure Area.Ordered (a : Area) : Prop where
  first : a.start ≤ a.first
  last : a.first ≤ a.last
  limit : a.last ≤ a.limit

/-- The pieces lie in the areas and do not meet, and nor do the areas and the allocations. -/
structure Filled (areas : List Area) (own pieces : List Range) : Prop where
  apart : (areas.map Area.region ++ own).Pairwise Range.Apart
  ordered : ∀ a ∈ areas, a.Ordered
  carved : ∀ p ∈ pieces, ∃ a ∈ areas, a.first ≤ p.start ∧ p.start + p.size ≤ a.last
  pieces : pieces.Pairwise Range.Apart

variable {areas before after : List Area} {own own' pieces pieces' : List Range} {a : Area}
  {p r : Range}

theorem Area.Ordered.header_within (h : a.Ordered) : a.header.Within a.region := by
  obtain ⟨hfirst, hlast, hlimit⟩ := h
  unfold Range.Within Area.header Area.region
  simp only
  omega

/-- A piece of an area lies in its region, behind its header. -/
theorem Area.Ordered.piece (h : a.Ordered) (hp : a.first ≤ p.start)
    (hp' : p.start + p.size ≤ a.last) : p.Within a.region ∧ p.Apart a.header := by
  obtain ⟨hfirst, hlast, hlimit⟩ := h
  unfold Range.Within Range.Apart Area.header Area.region
  simp only
  omega

/-- The regions of two areas, if they are not the same one. -/
theorem Filled.regions_apart (h : Filled areas own pieces) {b : Area} (ha : a ∈ areas)
    (hb : b ∈ areas) : a = b ∨ a.region.Apart b.region := by
  have hpairs := List.pairwise_map.mp (List.pairwise_append.mp h.apart).1
  by_cases hab : a = b
  · exact .inl hab
  · have hsymm : Std.Symm fun a b : Area => a.region.Apart b.region := ⟨fun _ _ h => h.symm⟩
    exact .inr (hpairs.forall ha hb hab)

theorem Filled.own_apart (h : Filled areas own pieces) (ha : a ∈ areas) (hr : r ∈ own) :
    a.region.Apart r :=
  (List.pairwise_append.mp h.apart).2.2 _ (List.mem_map_of_mem ha) _ hr

/-- Pieces, allocations and headers do not meet. -/
theorem Filled.all_apart (h : Filled areas own pieces) :
    (pieces ++ own ++ areas.map Area.header).Pairwise Range.Apart := by
  obtain ⟨hregions, hown, -⟩ := List.pairwise_append.mp h.apart
  rw [List.pairwise_append, List.pairwise_append]
  refine ⟨⟨h.pieces, hown, ?_⟩, ?_, ?_⟩
  · intro q hq r hr
    obtain ⟨a, ha, hfirst, hlast⟩ := h.carved q hq
    have hwithin := ((h.ordered a ha).piece hfirst hlast).1
    exact (h.own_apart ha hr).within hwithin ⟨le_rfl, le_rfl⟩
  · rw [List.pairwise_map] at hregions ⊢
    refine hregions.imp_of_mem ?_
    intro b c hb hc hbc
    exact hbc.within (h.ordered b hb).header_within (h.ordered c hc).header_within
  · intro q hq r hr
    obtain ⟨b, hb, rfl⟩ := List.mem_map.mp hr
    obtain hpiece | hallocation := List.mem_append.mp hq
    · obtain ⟨a, ha, hfirst, hlast⟩ := h.carved q hpiece
      obtain ⟨hwithin, hheader⟩ := (h.ordered a ha).piece hfirst hlast
      obtain rfl | hapart := h.regions_apart ha hb
      · exact hheader
      · exact hapart.within hwithin (h.ordered b hb).header_within
    · have hregion := h.own_apart hb hallocation
      exact (hregion.within (h.ordered b hb).header_within ⟨le_rfl, le_rfl⟩).symm

theorem Filled.perm (h : Filled areas own pieces) (hown : own'.Perm own)
    (hpieces : pieces'.Perm pieces) : Filled areas own' pieces' where
  apart := (List.Perm.pairwise_iff (fun h => Range.Apart.symm h)
    (List.Perm.append_left _ hown)).mpr h.apart
  ordered := h.ordered
  carved := fun p hp => h.carved p (hpieces.mem_iff.mp hp)
  pieces := (List.Perm.pairwise_iff (fun h => Range.Apart.symm h) hpieces).mpr h.pieces

/-- An allocation is given back. -/
theorem Filled.release (h : Filled areas own pieces) (hown : own'.Sublist own) :
    Filled areas own' pieces where
  apart := h.apart.sublist (List.Sublist.append_left hown _)
  ordered := h.ordered
  carved := h.carved
  pieces := h.pieces

/-- An allocation is added that meets none of the others and no area. -/
theorem Filled.allocate (h : Filled areas own pieces)
    (hr : ∀ q ∈ areas.map Area.region ++ own, r.Apart q) : Filled areas (r :: own) pieces where
  apart := by
    have hswap : (areas.map Area.region ++ r :: own).Perm (r :: (areas.map Area.region ++ own)) :=
      List.perm_middle
    rw [List.Perm.pairwise_iff (fun h => Range.Apart.symm h) hswap]
    exact List.pairwise_cons.mpr ⟨hr, h.apart⟩
  ordered := h.ordered
  carved := h.carved
  pieces := h.pieces

/-- An area is added that meets none of the others and no allocation. -/
theorem Filled.extend (h : Filled areas own pieces) (ha : a.Ordered)
    (hr : ∀ q ∈ areas.map Area.region ++ own, a.region.Apart q) :
    Filled (areas ++ [a]) own pieces where
  apart := by
    have hswap : ((areas ++ [a]).map Area.region ++ own).Perm
        (a.region :: (areas.map Area.region ++ own)) := by
      rw [List.map_append, List.append_assoc]
      exact List.perm_middle
    rw [List.Perm.pairwise_iff (fun h => Range.Apart.symm h) hswap]
    exact List.pairwise_cons.mpr ⟨hr, h.apart⟩
  ordered := by
    intro b hb
    obtain hold | hnew := List.mem_append.mp hb
    · exact h.ordered b hold
    · rw [List.mem_singleton.mp hnew]
      exact ha
  carved := by
    intro q hq
    obtain ⟨b, hb, hin⟩ := h.carved q hq
    exact ⟨b, List.mem_append_left _ hb, hin⟩
  pieces := h.pieces

/-- A piece is carved out of an area behind the earlier ones. -/
theorem Filled.carve (h : Filled (before ++ a :: after) own pieces) (hlast : a.last ≤ p.start)
    (hlimit : p.start + p.size ≤ a.limit) :
    Filled (before ++ { a with last := p.start + p.size } :: after) own (p :: pieces) := by
  have hmem : a ∈ before ++ a :: after := by simp
  obtain ⟨hstart, hfirst, -⟩ := h.ordered a hmem
  have hpiece : p.Within a.region := by
    unfold Range.Within Area.region
    simp only
    omega
  have hlater : ∀ q ∈ pieces, p.Apart q := by
    intro q hq
    obtain ⟨b, hb, hqfirst, hqlast⟩ := h.carved q hq
    obtain rfl | hapart := h.regions_apart hmem hb
    · exact .inr (by omega)
    · exact hapart.within hpiece ((h.ordered b hb).piece hqfirst hqlast).1
  refine ⟨?_, ?_, ?_, List.pairwise_cons.mpr ⟨hlater, h.pieces⟩⟩
  · have hsame : (before ++ { a with last := p.start + p.size } :: after).map Area.region =
        (before ++ a :: after).map Area.region := by
      simp only [List.map_append, List.map_cons]
      rfl
    rw [hsame]
    exact h.apart
  · intro b hb
    obtain hold | hnew | hold : b ∈ before ∨ b = { a with last := p.start + p.size } ∨ b ∈ after := by
      simpa only [List.mem_append, List.mem_cons] using hb
    · exact h.ordered b (List.mem_append_left _ hold)
    · rw [hnew]
      exact ⟨hstart, by simp only; omega, hlimit⟩
    · exact h.ordered b (by simp [hold])
  · intro q hq
    obtain rfl | hold := List.mem_cons.mp hq
    · exact ⟨{ a with last := q.start + q.size }, by simp, by simp only; omega, le_rfl⟩
    · obtain ⟨b, hb, hqfirst, hqlast⟩ := h.carved q hold
      obtain hbefore | hsame | hafter : b ∈ before ∨ b = a ∨ b ∈ after := by
        simpa only [List.mem_append, List.mem_cons] using hb
      · exact ⟨b, List.mem_append_left _ hbefore, hqfirst, hqlast⟩
      · rw [hsame] at hqfirst hqlast
        exact ⟨{ a with last := p.start + p.size }, by simp, hqfirst, by simp only; omega⟩
      · exact ⟨b, by simp [hafter], hqfirst, hqlast⟩

end CServer.Arena
