import PuyoChain.Proofs.Candidate.Listing
import PuyoChain.Proofs.Field.Contents
import PuyoChain.Proofs.Field.Operations

/-!
# Hashes of fields that differ in little

* `Candidate.AddsOne f`   the candidate is the field `f` with one puyo on top of a column;
* `zobristHash_tells_small_changes`   the hash of a field that operations build is that of its cells,
                          and tells such fields apart if they differ in one or two contents; so no
                          seen set takes one added puyo for another.

A puyo on top of a column adds its key to the hash (`Covered.zobristHash_place`), so two additions
that lead to one hash have one key, and with it one cell and one color.
-/

namespace PuyoChain

/-- the candidate adds one puyo to the field -/
def Candidate.AddsOne (f : Field) (c : Candidate) : Prop :=
  ∃ x a, a ≠ .empty ∧ c.additions.entries = [⟨x, a⟩] ∧ f.stack? x a = some c.field

namespace Field

variable {f : Field}

/-! ## one puyo on top -/

/-- what a puyo on top of column `x` becomes -/
def newContent (f : Field) (x : Nat) (a : Color) : Content := ⟨⟨x, f.height x + 1⟩, a⟩

section
variable {x : Nat} (hx : 1 ≤ x ∧ x ≤ 6) (hroom : f.height x < 14) {a : Color} (ha : a ≠ .empty)
include hx hroom

theorem inField_newContent : (f.newContent x a).cell.inField = true := by
  rw [Cell.inField_iff]
  show (1 ≤ x ∧ x ≤ 6) ∧ 1 ≤ f.height x + 1 ∧ f.height x + 1 ≤ 14
  omega

theorem Covered.newContent_not_mem (hf : f.Covered) : f.newContent x a ∉ f.contents := by
  intro hmem
  obtain ⟨_, hne, hcolor⟩ := (f.mem_contents_iff _).mp hmem
  exact hne (hcolor.symm.trans (hf.color_above_height hx hroom))

include ha

theorem Covered.contents_place (hf : f.Covered) :
    (f.place x a).contents = insert (f.newContent x a) f.contents := by
  have hcolor : ∀ z y, (f.place x a).color z y =
      if z = x ∧ y = f.height x + 1 then a else f.color z y := f.color_place hx hroom a
  ext ⟨⟨z, y⟩, b⟩
  rw [Finset.mem_insert, mem_contents_iff, mem_contents_iff]
  show ((Cell.mk z y).inField = true ∧ b ≠ .empty ∧ (f.place x a).color z y = b) ↔
    _ ∨ (Cell.mk z y).inField = true ∧ b ≠ .empty ∧ f.color z y = b
  rw [hcolor]
  by_cases e : z = x ∧ y = f.height x + 1
  · obtain ⟨rfl, rfl⟩ := e
    -- the field itself has no content above its believed height
    rw [if_pos ⟨rfl, rfl⟩, hf.color_above_height hx hroom]
    constructor
    · rintro ⟨_, _, rfl⟩
      exact Or.inl rfl
    · rintro (h | ⟨_, hne, h⟩)
      · cases h
        exact ⟨inField_newContent (a := a) hx hroom, ha, rfl⟩
      · exact absurd h.symm hne
  · rw [if_neg e]
    have hne : (⟨⟨z, y⟩, b⟩ : Content) ≠ f.newContent x a := by
      intro h
      cases h
      exact e ⟨rfl, rfl⟩
    exact (or_iff_right hne).symm

theorem Covered.zobristHash_place (hf : f.Covered) :
    (f.place x a).zobristHash = (f.newContent x a).key ^^^ f.zobristHash := by
  rw [(hf.place hroom a).zobristHash_eq, hf.zobristHash_eq, hf.contents_place hx hroom ha, xorKeys,
    Finset.fold_insert (hf.newContent_not_mem hx hroom)]
  rfl

end

end Field

/-! ## two candidates of one puyo -/

section
variable {f : Field} {c d : Candidate}

theorem Candidate.AddsOne.exists_place (h : c.AddsOne f) : ∃ x a, (1 ≤ x ∧ x ≤ 6) ∧
    f.height x < 14 ∧ a ≠ .empty ∧ c = ⟨f.place x a, ⟨[⟨x, a⟩]⟩⟩ := by
  obtain ⟨x, a, ha, hentries, hstack⟩ := h
  obtain ⟨⟨hx, hroom, _⟩, hfield⟩ := (f.stack?_eq_some_iff c.field x a).mp hstack
  refine ⟨x, a, hx, hroom, ha, ?_⟩
  obtain ⟨g, ⟨entries⟩⟩ := c
  cases hfield
  cases hentries
  rfl

/-- candidates of one puyo that have one hash add the same puyo -/
theorem Candidate.AddsOne.eq_of_hash (hf : f.Covered) (hc : c.AddsOne f) (hd : d.AddsOne f)
    (h : c.field.zobristHash = d.field.zobristHash) : c = d := by
  obtain ⟨x, a, hx, hroom, ha, rfl⟩ := hc.exists_place
  obtain ⟨x', a', hx', hroom', ha', rfl⟩ := hd.exists_place
  have hkeys : (f.newContent x a).key = (f.newContent x' a').key := by
    have hplaced : (f.place x a).zobristHash = (f.place x' a').zobristHash := h
    rw [hf.zobristHash_place hx hroom ha, hf.zobristHash_place hx' hroom' ha'] at hplaced
    exact (UInt64.xor_left_inj _).mp hplaced
  have hcontents := Content.key_inj (Field.inField_newContent hx hroom)
    (Field.inField_newContent hx' hroom') hkeys
  obtain ⟨rfl, rfl⟩ : x = x' ∧ a = a' := by
    injection hcontents with hcell hcolor
    injection hcell with hcolumn
    exact ⟨hcolumn, hcolor⟩
  rfl

/-- what a seen set makes of a candidate of another hash is not changed by a candidate that is
shown -/
theorem mem_hashes_of_showNew {σ : Type} {visit : Visitor σ Candidate} {seen seen' : Seen σ}
    (hne : c.field.zobristHash ≠ d.field.zobristHash) (h : showNew visit seen c = .proceed seen') :
    d.field.zobristHash ∈ seen'.hashes ↔ d.field.zobristHash ∈ seen.hashes := by
  rw [showNew] at h
  by_cases hmem : c.field.zobristHash ∈ seen.hashes
  · rw [if_pos hmem] at h
    cases h
    exact Iff.rfl
  · rw [if_neg hmem] at h
    cases hv : visit seen.state c with
    | stop s =>
      rw [hv] at h
      cases h
    | proceed s =>
      rw [hv] at h
      cases h
      exact List.mem_cons.trans (or_iff_right hne.symm)

/-- **Small changes change the hash.**  The hash of a field that operations build is the exclusive or
of the keys of its cells that are not empty, however far its believed heights are too high; so fields
with the same cells have one hash.  Two such fields have different hashes if one or two contents
belong to only one of them.  Different candidates that add one puyo to such a field therefore have
different hashes: showing one of them leaves another as new to a seen set as it was, and a detection
shows each of them unless it shows a candidate of more puyos that has the same hash. -/
theorem zobristHash_tells_small_changes (hf : f.Built) :
    f.zobristHash = xorKeys f.contents ∧
    (∀ g : Field, g.Built → (∀ p : Cell, p.inField = true → g.colorAt p = f.colorAt p) →
      g.zobristHash = f.zobristHash) ∧
    (∀ g : Field, g.Built →
      (symmDiff f.contents g.contents).card = 1 ∨ (symmDiff f.contents g.contents).card = 2 →
      f.zobristHash ≠ g.zobristHash) ∧
    (∀ c d : Candidate, c.AddsOne f → d.AddsOne f → c ≠ d →
      c.field.zobristHash ≠ d.field.zobristHash ∧
      ∀ {σ : Type} (visit : Visitor σ Candidate) (seen seen' : Seen σ),
        showNew visit seen c = .proceed seen' →
        (d.field.zobristHash ∈ seen'.hashes ↔ d.field.zobristHash ∈ seen.hashes)) ∧
    ∀ s prohibited purpose, ∀ d ∈ candidates f s prohibited purpose, d.AddsOne f →
      d ∈ detected f s prohibited purpose ∨
      ∃ c ∈ detected f s prohibited purpose, ¬ c.AddsOne f ∧
        c.field.zobristHash = d.field.zobristHash := by
  have hcov := hf.covered
  refine ⟨hcov.zobristHash_eq, fun g hg hcolors => ?_, fun g hg hdiff => ?_,
    fun c d hc hd hne => ?_, fun s prohibited purpose d hd hone => ?_⟩
  · rw [hg.covered.zobristHash_eq, hcov.zobristHash_eq, Field.contents_congr hcolors]
  · exact Field.zobristHash_ne hcov hg.covered hdiff
  · have hhash : c.field.zobristHash ≠ d.field.zobristHash :=
      fun e => hne (hc.eq_of_hash hcov hd e)
    exact ⟨hhash, fun visit seen seen' h => mem_hashes_of_showNew hhash h⟩
  · obtain ⟨c, hc, e⟩ := exists_mem_detected hd
    by_cases hcone : c.AddsOne f
    · rw [← hcone.eq_of_hash hcov hone e]
      exact Or.inl hc
    · exact Or.inr ⟨c, hc, hcone, e⟩

end

/-- a red puyo and an empty cell on top of it, which counts in the believed height -/
def raisedRed : Field := Field.empty.run [.stack 1 .red, .stack 1 .empty]

/-- the same cells with a believed height of 1, another color, and two puyos of which one hangs in
the air -/
theorem zobristHash_tells_small_changes_raisedRed :
    raisedRed.Built ∧ raisedRed.height 1 = 2 ∧ raisedRed.contents = {⟨⟨1, 1⟩, .red⟩} ∧
      raisedRed.zobristHash = xorKeys raisedRed.contents ∧
      (Field.empty.set 1 1 .red ≠ raisedRed ∧
        (Field.empty.set 1 1 .red).zobristHash = raisedRed.zobristHash) ∧
      ((symmDiff raisedRed.contents (Field.empty.set 1 1 .blue).contents).card = 2 ∧
        raisedRed.zobristHash ≠ (Field.empty.set 1 1 .blue).zobristHash) ∧
      ∃ c d : Candidate, c.AddsOne raisedRed ∧ d.AddsOne raisedRed ∧
        c.field.zobristHash ≠ d.field.zobristHash ∧
        showNew keep ⟨[], []⟩ c = .proceed ⟨[c.field.zobristHash], [c]⟩ ∧
        d.field.zobristHash ∉ [c.field.zobristHash] ∧
        d ∈ candidates raisedRed ⟨.drop, 1, 12, false⟩ .empty .key ∧
        (d ∈ detected raisedRed ⟨.drop, 1, 12, false⟩ .empty .key ∨
          ∃ e ∈ detected raisedRed ⟨.drop, 1, 12, false⟩ .empty .key, ¬ e.AddsOne raisedRed ∧
            e.field.zobristHash = d.field.zobristHash) := by
  have hf : raisedRed.Built := ⟨Field.empty, Or.inl rfl, _, rfl⟩
  have hred : (Field.empty.set 1 1 .red).Built := ⟨Field.empty, Or.inl rfl, [.set 1 1 .red], rfl⟩
  have hblue : (Field.empty.set 1 1 .blue).Built := ⟨Field.empty, Or.inl rfl, [.set 1 1 .blue], rfl⟩
  have hcells : ∀ p : Cell, p.inField = true →
      (Field.empty.set 1 1 .red).colorAt p = raisedRed.colorAt p := by
    have hall : ∀ p ∈ fieldCells, (Field.empty.set 1 1 .red).colorAt p = raisedRed.colorAt p := by
      decide +kernel
    exact fun p hp => hall p ((mem_fieldCells_iff p).mpr hp)
  have hdiff : (symmDiff raisedRed.contents (Field.empty.set 1 1 .blue).contents).card = 2 := by
    decide +kernel
  have hc : Candidate.AddsOne raisedRed ⟨raisedRed.place 1 .blue, ⟨[⟨1, .blue⟩]⟩⟩ :=
    ⟨1, .blue, by decide, rfl, by decide +kernel⟩
  have hd : Candidate.AddsOne raisedRed ⟨raisedRed.place 2 .red, ⟨[⟨2, .red⟩]⟩⟩ :=
    ⟨2, .red, by decide, rfl, by decide +kernel⟩
  have hmem : ⟨raisedRed.place 2 .red, ⟨[⟨2, .red⟩]⟩⟩ ∈
      candidates raisedRed ⟨.drop, 1, 12, false⟩ .empty .key := by decide +kernel
  have hne : (⟨raisedRed.place 1 .blue, ⟨[⟨1, .blue⟩]⟩⟩ : Candidate) ≠
      ⟨raisedRed.place 2 .red, ⟨[⟨2, .red⟩]⟩⟩ := by decide +kernel
  obtain ⟨hkeys, hsame, hsmall, hone, hshown⟩ := zobristHash_tells_small_changes hf
  obtain ⟨hhash, hseen⟩ := hone _ _ hc hd hne
  refine ⟨hf, by decide +kernel, by decide +kernel, hkeys, ⟨by decide +kernel, hsame _ hred hcells⟩,
    ⟨hdiff, hsmall _ hblue (Or.inr hdiff)⟩, _, _, hc, hd, hhash, rfl, ?_, hmem,
    hshown _ _ _ _ hmem hd⟩
  exact fun h => List.not_mem_nil ((hseen keep ⟨[], []⟩ _ rfl).mp h)

end PuyoChain
