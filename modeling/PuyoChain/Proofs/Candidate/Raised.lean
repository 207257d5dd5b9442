import PuyoChain.Proofs.Candidate.Layers
import PuyoChain.Proofs.Field.Falling

/-!
# How high the additions of layers come to rest

A layer keeps the ceiling on its ground, the field that the chain of the layers below leaves.  Its
additions are made to the untouched field, whose columns are as high as before that chain, and so
they come to rest higher by as much as the chain has lowered their columns.

* `raised`          the cells in which the additions of layers come to rest, layer by layer;
* `Piled`           layers whose additions come to rest there, each of them low on its ground;
* `Tower.piled`     towers are piled, and so is what tops one (`Candidate.Tops.piled`).

So the added puyos of a composed candidate keep the ceiling just if the raised cells do
(`low_iff_raised_low`).  They need not (`layered_above_ceiling`).
-/

namespace PuyoChain

/-- the cells in which the additions of layers come to rest on the field `f`, from below: those on
the ground of each layer, raised to the height of the field with the layers below -/
def raised (f : Field) : List Layer → List Cell
  | [] => []
  | l :: ls =>
    (l.ground.landings l.additions.entries).map (f.raise l.ground) ++
      raised (f.placeAll l.additions.entries) ls

/-- layers that come to rest in the raised cells, and low on their grounds -/
structure Piled (f : Field) (ceiling : Nat) (layers : List Layer) : Prop where
  landings : f.landings (layerEntries layers) = raised f layers
  low : ∀ l ∈ layers, ∀ q ∈ l.ground.landings l.additions.entries, q.y ≤ ceiling

variable {f g : Field} {s : Strategy} {k : Nat} {l : Additions} {below layers : List Layer}
  {calls : List Call} {c : Candidate}

theorem raised_append (f : Field) (ls ms : List Layer) :
    raised f (ls ++ ms) = raised f ls ++ raised (f.placeAll (layerEntries ls)) ms := by
  induction ls generalizing f with
  | nil => rfl
  | cons l ls ih =>
    show _ ++ raised (f.placeAll l.additions.entries) (ls ++ ms) = _
    rw [ih, raised, List.append_assoc]
    congr 2
    show _ = raised (f.placeAll (l.additions.entries ++ layerEntries ls)) ms
    rw [Field.placeAll_append]

/-! ## towers -/

theorem Candidate.Tops.piled (hg : g.Covered) (h : c.Tops f s below ⟨g, l⟩)
    (hpiled : Piled f s.ceiling below)
    (hle : ∀ x, g.height x ≤ (f.placeAll (layerEntries below)).height x) :
    Piled f s.ceiling (below ++ [⟨g, l⟩]) := by
  obtain ⟨d, _, hsound, e⟩ := h.sound hg
  obtain rfl := e
  refine ⟨?_, fun layer hlayer => ?_⟩
  · rw [layerEntries_append, layerEntries_singleton, Field.landings_append, hpiled.landings,
      raised_append, Field.landings_eq_map_raise (fun e he => (hsound.solid e he).1) hle]
    exact congrArg _ (List.append_nil _).symm
  · rcases List.mem_append.mp hlayer with hlayer | hlayer
    · exact hpiled.low layer hlayer
    · rw [List.mem_singleton.mp hlayer]
      exact hsound.low

/-- the layers of a tower are piled, and their chains have made no column higher -/
theorem Tower.piled (hf : f.Covered) (h : Tower f s calls below g k) :
    Piled f s.ceiling below ∧ ∀ x, g.height x ≤ (f.placeAll (layerEntries below)).height x := by
  induction h with
  | ground => exact ⟨⟨rfl, fun _ hl => absurd hl List.not_mem_nil⟩, fun _ => Nat.le_refl _⟩
  | layer tower tops _ _ ih =>
    obtain ⟨hpiled, hle⟩ := ih
    obtain ⟨hfits, hfield⟩ := tower.fits_tops hf tops
    refine ⟨tops.piled (tower.covered hf) hpiled hle, fun x => ?_⟩
    rw [← tops.entries, ← hfield]
    refine Field.height_simulate_le ?_ x
    rw [hfield]
    exact hf.placeAll hfits

/-- the cells that a candidate on a tower has and the field has not are the raised ones -/
theorem Tower.colorAt_ne_iff (hf : f.Covered) (h : Tower f s calls below g k)
    (ht : c.Tops f s below ⟨g, l⟩) (q : Cell) :
    c.field.colorAt q ≠ f.colorAt q ↔ q ∈ raised f (below ++ [⟨g, l⟩]) := by
  obtain ⟨hbelow, hle⟩ := h.piled hf
  obtain ⟨hfits, hfield⟩ := h.fits_tops hf ht
  rw [hfield, hf.colorAt_placeAll_ne_iff hfits fun e he => (h.solid_tops hf ht e he).2,
    ht.entries, (ht.piled (h.covered hf) hbelow hle).landings]

/-- **The ceiling of a layer is one of its ground.**  What a layered detection shows to whatever
visitor has just the raised cells of its layers more than the field.  Every layer keeps the ceiling
on its ground, so the added puyos of a single layer are never above it; those of several layers are
not just if the raised cells are not. -/
theorem low_iff_raised_low (hf : f.Built) (s : Strategy) (maxLayers : Nat) {σ : Type}
    (visit : ChainVisitor σ) (state : σ) :
    ∀ earlier call, earlier ++ [call] <+: layeredCalls f s maxLayers visit state →
      ∃ below g k l, Tower f s earlier below g k ∧ call.shown.Tops f s below ⟨g, l⟩ ∧
        (∀ layer ∈ below ++ [⟨g, l⟩],
          ∀ q ∈ layer.ground.landings layer.additions.entries, q.y ≤ min s.maxHeight 12) ∧
        (∀ q, call.shown.field.colorAt q ≠ f.colorAt q ↔ q ∈ raised f (below ++ [⟨g, l⟩])) ∧
        (below = [] → ∀ q, call.shown.field.colorAt q ≠ f.colorAt q → q.y ≤ min s.maxHeight 12) ∧
        ((∀ q, call.shown.field.colorAt q ≠ f.colorAt q → q.y ≤ min s.maxHeight 12) ↔
          ∀ q ∈ raised f (below ++ [⟨g, l⟩]), q.y ≤ min s.maxHeight 12) := by
  intro earlier call hprefix
  have hcov := hf.covered
  have hrecord := layerRecord_layeredCalls hcov s maxLayers visit state
  obtain ⟨below, g, k, l, htower, htops, _⟩ := hrecord.builds earlier call hprefix
  have hchanged := htower.colorAt_ne_iff hcov htops
  obtain ⟨hbelow, hle⟩ := htower.piled hcov
  have hpiled := htops.piled (htower.covered hcov) hbelow hle
  refine ⟨below, g, k, l, htower, htops, hpiled.low, hchanged, fun hnil q hq => ?_,
    forall_congr' fun q => by rw [hchanged q]⟩
  obtain rfl := htower.eq_of_nil hnil
  subst hnil
  rw [hchanged, ← hpiled.landings, layerEntries_append, layerEntries_singleton] at hq
  exact hpiled.low ⟨f, l⟩ List.mem_cons_self q hq

/-- three red puyos side by side and three yellow ones on them -/
def yellowOnRed : Field := Field.empty.run [.stack 1 .red, .stack 2 .red, .stack 3 .red,
  .stack 1 .yellow, .stack 2 .yellow, .stack 3 .yellow]

/-- a visitor that answers the steps of the chain -/
def countSteps : ChainVisitor Unit := fun u c => .proceed (u, c.field.simulate.2.chains)

/-- a fourth yellow puyo, in row 2 after the red ones have vanished, is in row 3 before that -/
theorem exists_call_yellowOnRed :
    ∃ call ∈ layeredCalls yellowOnRed ⟨.drop, 1, 2, false⟩ 2 countSteps (),
      call.shown.field.colorAt ⟨1, 3⟩ ≠ yellowOnRed.colorAt ⟨1, 3⟩ := by
  have h : ((layeredCalls yellowOnRed ⟨.drop, 1, 2, false⟩ 2 countSteps ()).any fun call =>
      call.shown.field.colorAt ⟨1, 3⟩ != yellowOnRed.colorAt ⟨1, 3⟩) = true := by decide +kernel
  obtain ⟨call, hcall, hne⟩ := List.any_eq_true.mp h
  exact ⟨call, hcall, bne_iff_ne.mp hne⟩

theorem low_iff_raised_low_yellowOnRed :
    yellowOnRed.Built ∧
      ∃ earlier call, earlier ++ [call] <+:
          layeredCalls yellowOnRed ⟨.drop, 1, 2, false⟩ 2 countSteps () ∧
        ∃ below g k l, Tower yellowOnRed ⟨.drop, 1, 2, false⟩ earlier below g k ∧
          call.shown.Tops yellowOnRed ⟨.drop, 1, 2, false⟩ below ⟨g, l⟩ ∧
          ∃ q ∈ raised yellowOnRed (below ++ [⟨g, l⟩]), 2 < q.y := by
  have hf : yellowOnRed.Built := ⟨Field.empty, Or.inl rfl, _, rfl⟩
  obtain ⟨call, hcall, hne⟩ := exists_call_yellowOnRed
  obtain ⟨earlier, hprefix⟩ := exists_prefix_of_mem hcall
  obtain ⟨below, g, k, l, htower, htops, _, hchanged, _, _⟩ :=
    low_iff_raised_low hf ⟨.drop, 1, 2, false⟩ 2 countSteps () earlier call hprefix
  exact ⟨hf, earlier, call, hprefix, below, g, k, l, htower, htops, ⟨1, 3⟩,
    (hchanged ⟨1, 3⟩).mp hne, by decide⟩

/-- a visitor that answers the steps of the chain is shown an added puyo above the ceiling -/
theorem layered_above_ceiling :
    yellowOnRed.Built ∧
      ∃ call ∈ layeredCalls yellowOnRed ⟨.drop, 1, 2, false⟩ 2 countSteps (),
        ∃ q, call.shown.field.colorAt q ≠ yellowOnRed.colorAt q ∧ ¬ q.y ≤ min 2 12 := by
  obtain ⟨call, hcall, hne⟩ := exists_call_yellowOnRed
  exact ⟨⟨Field.empty, Or.inl rfl, _, rfl⟩, call, hcall, ⟨1, 3⟩, hne, by decide⟩

end PuyoChain
