import Mathlib.Data.List.Nodup
import Mathlib.Logic.Relation
import Mathlib.Tactic.ByContra
import PuyoChain.Search.Spread

/-!
# What spreading reaches

* `Leads next a b`   some steps of `next` lead from `a` to `b`;
* `Within next U`    every step ends in the list `U`;
* `ClosedUnder next U`   no step leaves the list `U`.

Within a closed list of at most `fuel` places, `spread` from one place lists each place that steps lead to
once (`mem_spread_iff`, `nodup_spread`), more fuel changes nothing (`spread_eq_of_le`), and
`spreadUpTo` is the length of that list, cut off at the limit (`spreadUpTo_eq_min`).
-/

namespace PuyoChain

section
variable {α : Type}

/-- some steps lead from the one place to the other -/
def Leads (next : α → List α) : α → α → Prop := Relation.ReflTransGen fun a b => b ∈ next a

/-- every step ends in the list, wherever it starts -/
def Within (next : α → List α) (U : List α) : Prop := ∀ a b, b ∈ next a → b ∈ U

/-- no step leaves the list -/
def ClosedUnder (next : α → List α) (U : List α) : Prop := ∀ a ∈ U, ∀ b ∈ next a, b ∈ U

theorem Within.closedUnder {next : α → List α} {U : List α} (h : Within next U) :
    ClosedUnder next U :=
  fun a _ => h a

theorem leads_refl (next : α → List α) (a : α) : Leads next a a := Relation.ReflTransGen.refl

theorem Leads.trans {next : α → List α} {a b c : α} (h : Leads next a b) (h' : Leads next b c) :
    Leads next a c :=
  Relation.ReflTransGen.trans h h'

/-- where every step from the places led to has a step back, steps lead back too -/
theorem Leads.symm {next : α → List α} {a b : α}
    (hs : ∀ c d, Leads next a c → d ∈ next c → c ∈ next d) (h : Leads next a b) :
    Leads next b a := by
  induction h with
  | refl => exact Relation.ReflTransGen.refl
  | tail hab hbc ih => exact Relation.ReflTransGen.head (hs _ _ hab hbc) ih

/-- a property that every step hands on reaches every place that steps lead to -/
theorem Leads.hand_on {next : α → List α} {P : α → Prop} (hP : ∀ a b, P a → b ∈ next a → P b)
    {a b : α} (h : Leads next a b) (ha : P a) : P b := by
  induction h with
  | refl => exact ha
  | tail _ hbc ih => exact hP _ _ ih hbc

/-- steps to a place without a property leave the places with it somewhere -/
theorem Leads.exists_exit {next : α → List α} {P : α → Prop} {a b : α} (h : Leads next a b)
    (ha : P a) (hb : ¬ P b) : ∃ c d, P c ∧ d ∈ next c ∧ ¬ P d := by
  by_contra hn
  refine hb (h.hand_on (P := P) (fun c d hc hd => ?_) ha)
  by_contra hd'
  exact hn ⟨c, d, hc, hd, hd'⟩

/-- steps that `next` makes from the places led to are steps of `next'` too -/
theorem Leads.mono {next next' : α → List α} {a b : α}
    (hstep : ∀ c d, Leads next a c → d ∈ next c → d ∈ next' c) (h : Leads next a b) :
    Leads next' a b := by
  induction h with
  | refl => exact Relation.ReflTransGen.refl
  | tail hab hbc ih => exact Relation.ReflTransGen.tail ih (hstep _ _ hab hbc)

variable [DecidableEq α] {next : α → List α}

/-! ## layers -/

theorem spread_cons (fuel : Nat) (seen layer : List α) (a : α) :
    spread next (fuel + 1) seen (a :: layer) =
      (a :: layer) ++ spread next fuel ((a :: layer) ++ seen) (nextLayer next seen (a :: layer)) :=
  rfl

theorem mem_nextLayer_iff (seen layer : List α) (b : α) :
    b ∈ nextLayer next seen layer ↔ (∃ a ∈ layer, b ∈ next a) ∧ b ∉ layer ∧ b ∉ seen := by
  unfold nextLayer
  rw [mem_fresh_iff, List.mem_flatMap, List.mem_append, not_or]

variable (next) in
theorem nodup_nextLayer_append {seen layer : List α} (h : (layer ++ seen).Nodup) :
    (nextLayer next seen layer ++ (layer ++ seen)).Nodup := by
  refine List.Nodup.append (nodup_fresh _ _) h fun b hb hb' => ?_
  exact ((mem_fresh_iff _ _ _).mp hb).2 hb'

/-! ## what is listed -/

theorem leads_of_mem_spread {fuel : Nat} {seen layer : List α} {b : α}
    (h : b ∈ spread next fuel seen layer) : ∃ a ∈ layer, Leads next a b := by
  induction fuel generalizing seen layer with
  | zero => cases h
  | succ fuel ih =>
    cases layer with
    | nil => cases h
    | cons a layer =>
      rw [spread_cons, List.mem_append] at h
      rcases h with h | h
      · exact ⟨b, h, leads_refl next b⟩
      · obtain ⟨c, hc, hcb⟩ := ih h
        obtain ⟨⟨a', ha', hac⟩, _, _⟩ := (mem_nextLayer_iff _ _ _).mp hc
        exact ⟨a', ha', Relation.ReflTransGen.head hac hcb⟩

theorem nodup_spread_append {fuel : Nat} {seen layer : List α} (h : (layer ++ seen).Nodup) :
    (spread next fuel seen layer ++ seen).Nodup := by
  induction fuel generalizing seen layer with
  | zero => exact h.of_append_right
  | succ fuel ih =>
    cases layer with
    | nil => exact h
    | cons a layer =>
      have h1 := ih (nodup_nextLayer_append next h)
      rw [spread_cons]
      refine (List.perm_append_comm.append_right seen).nodup_iff.mp ?_
      rw [List.append_assoc]
      exact h1

theorem mem_spread_of_mem {fuel : Nat} {seen layer : List α} {a : α} (h : a ∈ layer) :
    a ∈ spread next (fuel + 1) seen layer := by
  cases layer with
  | nil => cases h
  | cons b layer =>
    rw [spread_cons]
    exact List.mem_append_left _ h

theorem nextLayer_append_subset {U seen layer : List α} (hU : ClosedUnder next U)
    (hsub : layer ++ seen ⊆ U) : nextLayer next seen layer ++ (layer ++ seen) ⊆ U := by
  intro b hb
  rw [List.mem_append] at hb
  rcases hb with hb | hb
  · obtain ⟨⟨a, ha, hab⟩, _, _⟩ := (mem_nextLayer_iff _ _ _).mp hb
    exact hU a (hsub (List.mem_append_left _ ha)) b hab
  · exact hsub hb

omit [DecidableEq α] in
/-- where as many places are seen as there are, no layer is left -/
theorem layer_eq_nil {U seen layer : List α} (hnd : (layer ++ seen).Nodup)
    (hsub : layer ++ seen ⊆ U) (hlen : U.length ≤ seen.length) : layer = [] := by
  have hle := hnd.length_le_of_subset hsub
  rw [List.length_append] at hle
  exact List.length_eq_zero_iff.mp (by omega)

/-- fuel beyond one layer for every place of `U` that is not yet seen changes nothing -/
theorem spread_eq_of_le {U : List α} (hU : ClosedUnder next U) {fuel fuel' : Nat}
    {seen layer : List α} (hnd : (layer ++ seen).Nodup) (hsub : layer ++ seen ⊆ U)
    (hfuel : U.length ≤ fuel + seen.length) (hle : fuel ≤ fuel') :
    spread next fuel' seen layer = spread next fuel seen layer := by
  induction fuel generalizing fuel' seen layer with
  | zero =>
    rw [layer_eq_nil hnd hsub (by omega), spread_nil, spread_nil]
  | succ fuel ih =>
    obtain ⟨n, rfl⟩ : ∃ n, fuel' = n + 1 := ⟨fuel' - 1, by omega⟩
    cases layer with
    | nil => rfl
    | cons a layer =>
      rw [spread_cons, spread_cons, ih (nodup_nextLayer_append next hnd)
        (nextLayer_append_subset hU hsub) (by rw [List.length_append, List.length_cons]; omega)
        (Nat.le_of_succ_le_succ hle)]

/-- with fuel for every place of `U` that is not yet seen, no step leaves what is listed or seen -/
theorem spread_closed {U : List α} (hU : ClosedUnder next U) {fuel : Nat} {seen layer : List α}
    (hnd : (layer ++ seen).Nodup) (hsub : layer ++ seen ⊆ U)
    (hfuel : U.length ≤ fuel + seen.length)
    (hseen : ∀ a ∈ seen, ∀ b ∈ next a, b ∈ seen ∨ b ∈ layer) :
    ∀ a ∈ spread next fuel seen layer ++ seen, ∀ b ∈ next a,
      b ∈ spread next fuel seen layer ++ seen := by
  induction fuel generalizing seen layer with
  | zero =>
    have hnil : layer = [] := layer_eq_nil hnd hsub (by omega)
    subst hnil
    intro a ha b hb
    exact (hseen a ha b hb).resolve_right List.not_mem_nil
  | succ fuel ih =>
    cases layer with
    | nil =>
      intro a ha b hb
      exact (hseen a ha b hb).resolve_right List.not_mem_nil
    | cons c layer =>
      have hnd' := nodup_nextLayer_append next hnd
      have hsub' := nextLayer_append_subset hU hsub
      have hclosed : ∀ a ∈ (c :: layer) ++ seen, ∀ b ∈ next a,
          b ∈ (c :: layer) ++ seen ∨ b ∈ nextLayer next seen (c :: layer) := by
        intro a ha b hab
        by_cases hb : b ∈ (c :: layer) ++ seen
        · exact Or.inl hb
        · rw [List.mem_append, not_or] at hb
          rw [List.mem_append] at ha
          rcases ha with ha | ha
          · exact Or.inr ((mem_nextLayer_iff _ _ _).mpr ⟨⟨a, ha, hab⟩, hb⟩)
          · exact absurd (hseen a ha b hab) (not_or.mpr ⟨hb.2, hb.1⟩)
      have h := ih hnd' hsub' (by rw [List.length_append, List.length_cons]; omega) hclosed
      rw [spread_cons]
      intro a ha b hb
      have hmem : ∀ e, e ∈ (c :: layer) ++ spread next fuel ((c :: layer) ++ seen)
          (nextLayer next seen (c :: layer)) ++ seen ↔
          e ∈ spread next fuel ((c :: layer) ++ seen) (nextLayer next seen (c :: layer)) ++
            ((c :: layer) ++ seen) := by
        intro e
        simp only [List.mem_append]
        tauto
      exact (hmem b).mpr (h a ((hmem a).mp ha) b hb)

theorem nodup_spread (fuel : Nat) (a : α) : (spread next fuel [] [a]).Nodup := by
  have h : (spread next fuel [] [a] ++ []).Nodup := nodup_spread_append (List.nodup_singleton a)
  rwa [List.append_nil] at h

/-- `spread` lists the places that steps lead to -/
theorem mem_spread_iff {U : List α} (hU : ClosedUnder next U) {fuel : Nat} (hfuel : U.length ≤ fuel)
    {a : α} (ha : a ∈ U) (b : α) : b ∈ spread next fuel [] [a] ↔ Leads next a b := by
  constructor
  · intro h
    obtain ⟨c, hc, hcb⟩ := leads_of_mem_spread h
    rw [List.mem_singleton] at hc
    rwa [hc] at hcb
  · have hclosed : ∀ c ∈ spread next fuel [] [a] ++ [], ∀ d ∈ next c,
        d ∈ spread next fuel [] [a] ++ [] :=
      spread_closed hU (List.nodup_singleton a) (fun c hc => by rwa [List.mem_singleton.mp hc])
        (by rw [List.length_nil]; omega) (fun c hc => by cases hc)
    simp only [List.append_nil] at hclosed
    have hpos : 0 < U.length := List.length_pos_of_mem ha
    have hmem : a ∈ spread next fuel [] [a] := by
      obtain ⟨n, rfl⟩ : ∃ n, fuel = n + 1 := ⟨fuel - 1, by omega⟩
      exact mem_spread_of_mem (List.mem_singleton.mpr rfl)
    intro h
    exact h.hand_on (fun c d hc hd => hclosed c hc d hd) hmem

/-! ## counting up to a limit -/

/-- each layer has a place at least, so a limit is met within as many layers -/
theorem spreadUpTo_eq_min {limit fuel fuel' : Nat} (h : limit ≤ fuel) (h' : limit ≤ fuel')
    (hl : 0 < limit) (seen layer : List α) :
    spreadUpTo next limit fuel seen layer = min limit (spread next fuel' seen layer).length := by
  induction fuel generalizing limit fuel' seen layer with
  | zero => omega
  | succ fuel ih =>
    obtain ⟨n, rfl⟩ : ∃ n, fuel' = n + 1 := ⟨fuel' - 1, by omega⟩
    cases layer with
    | nil => exact (Nat.min_eq_right (Nat.zero_le _)).symm
    | cons a layer =>
      rw [spread_cons, List.length_append, List.length_cons]
      unfold spreadUpTo
      by_cases hlim : limit ≤ layer.length + 1
      · rw [if_pos hlim, Nat.min_eq_left (by omega)]
      · rw [if_neg hlim, ih (by omega) (by omega : limit - (layer.length + 1) ≤ n) (by omega)]
        omega

end

end PuyoChain
