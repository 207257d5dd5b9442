import PuyoChain.Proofs.Search.Reach

/-!
# Spreading with a list of pending places

To serve a pending place is to list it and to put those of its successors that were not met before
to the pending ones.  In which order they come up again is a matter of `put`.

* `serve put next`      the places in the order in which they are served;
* `enqueue`, `push`     the orders of a queue and of a stack;
* `Underway`            what is true of a search that has served some places;
* `mem_serve_iff`       in whatever order, just the places that steps lead to are served, each once
                        (`nodup_serve`), so those that `spread` lists (`serve_perm_spread`);
* `serve_enqueue_eq_spread`   a queue serves the places layer by layer, as `spread` lists them.
-/

namespace PuyoChain

section
variable {α : Type} [DecidableEq α]

/-! ## new places -/

theorem fresh_cons (seen as : List α) (a : α) :
    fresh seen (a :: as) = if a ∈ seen then fresh seen as else a :: fresh (a :: seen) as := rfl

theorem fresh_congr {seen seen' : List α} (h : ∀ a, a ∈ seen ↔ a ∈ seen') (as : List α) :
    fresh seen as = fresh seen' as := by
  induction as generalizing seen seen' with
  | nil => rfl
  | cons a as ih =>
    have hcons : ∀ b, b ∈ a :: seen ↔ b ∈ a :: seen' := by
      intro b
      rw [List.mem_cons, List.mem_cons, h]
    rw [fresh_cons, fresh_cons, ih h, ih hcons]
    simp only [h]

theorem fresh_append (seen as bs : List α) :
    fresh seen (as ++ bs) = fresh seen as ++ fresh (fresh seen as ++ seen) bs := by
  induction as generalizing seen with
  | nil => rfl
  | cons a as ih =>
    rw [List.cons_append, fresh_cons, fresh_cons]
    by_cases ha : a ∈ seen
    · rw [if_pos ha, if_pos ha]
      exact ih seen
    · rw [if_neg ha, if_neg ha, ih, List.cons_append]
      congr 2
      refine fresh_congr (fun b => ?_) bs
      simp only [List.mem_append, List.mem_cons]
      tauto

/-! ## serving one place after the other -/

/-- the places in the order in which they are served, at most `fuel`; `seen` are those met so far -/
def serve (put : List α → List α → List α) (next : α → List α) :
    Nat → List α → List α → List α
  | 0, _, _ => []
  | _ + 1, _, [] => []
  | fuel + 1, seen, a :: pending =>
    a :: serve put next fuel (fresh seen (next a) ++ seen) (put (fresh seen (next a)) pending)

/-- first come, first served -/
def enqueue (new pending : List α) : List α := pending ++ new

/-- last come, first served -/
def push (new pending : List α) : List α := new.reverse ++ pending

/-- what is put is pending, and nothing else changes -/
def Puts (put : List α → List α → List α) : Prop :=
  ∀ new pending, (put new pending).Perm (new ++ pending)

omit [DecidableEq α] in
theorem puts_enqueue : Puts (enqueue (α := α)) := fun _ _ => List.perm_append_comm

omit [DecidableEq α] in
theorem puts_push : Puts (push (α := α)) := fun new pending => new.reverse_perm.append_right pending

/-- the places of `done` were served, those of `pending` are to be, and no others were met -/
structure Underway (next : α → List α) (U done seen pending : List α) : Prop where
  met : ∀ b, b ∈ seen ↔ b ∈ pending ++ done
  once : (pending ++ done).Nodup
  within : pending ++ done ⊆ U
  closed : ∀ b ∈ done, ∀ c ∈ next b, c ∈ pending ++ done

variable {put : List α → List α → List α} {next : α → List α} {U done seen pending : List α}

omit [DecidableEq α] in
theorem underway_start {a : α} (ha : a ∈ U) : Underway next U [] [a] [a] where
  met b := Iff.rfl
  once := List.nodup_singleton a
  within := fun b hb => by rwa [List.mem_singleton.mp hb]
  closed := nofun

theorem Underway.step (hput : Puts put) (hU : ClosedUnder next U) {a : α}
    (h : Underway next U done seen (a :: pending)) :
    Underway next U (done ++ [a]) (fresh seen (next a) ++ seen)
      (put (fresh seen (next a)) pending) := by
  have hperm : (put (fresh seen (next a)) pending ++ (done ++ [a])).Perm
      (fresh seen (next a) ++ (a :: pending ++ done)) := by
    refine ((hput _ _).append_right _).trans ?_
    rw [List.append_assoc]
    refine List.Perm.append_left _ ?_
    rw [← List.append_assoc]
    exact List.perm_append_comm
  have hmem : ∀ b, b ∈ put (fresh seen (next a)) pending ++ (done ++ [a]) ↔
      b ∈ fresh seen (next a) ∨ b ∈ seen := by
    intro b
    rw [hperm.mem_iff, List.mem_append, h.met]
  refine ⟨fun b => ?_, ?_, fun b hb => ?_, fun b hb c hc => ?_⟩
  · rw [hmem, List.mem_append]
  · refine hperm.nodup_iff.mpr ((nodup_fresh _ _).append h.once fun b hb hb' => ?_)
    exact ((mem_fresh_iff _ _ _).mp hb).2 ((h.met b).mpr hb')
  · rcases (hmem b).mp hb with hb | hb
    · exact hU a (h.within List.mem_cons_self) b ((mem_fresh_iff _ _ _).mp hb).1
    · exact h.within ((h.met b).mp hb)
  · rw [hmem]
    by_cases hs : c ∈ seen
    · exact Or.inr hs
    · rcases List.mem_append.mp hb with hb | hb
      · exact Or.inr ((h.met c).mpr (h.closed b hb c hc))
      · rw [List.mem_singleton.mp hb] at hc
        exact Or.inl ((mem_fresh_iff _ _ _).mpr ⟨hc, hs⟩)

omit [DecidableEq α] in
theorem Underway.length_done_le (h : Underway next U done seen pending) :
    done.length ≤ U.length := by
  have hle := h.once.length_le_of_subset h.within
  rw [List.length_append] at hle
  omega

omit [DecidableEq α] in
/-- a search that has served as many places as there are is over -/
theorem Underway.pending_eq_nil (h : Underway next U done seen pending)
    (hlen : U.length ≤ done.length) : pending = [] :=
  layer_eq_nil h.once h.within hlen

/-! ## what is served -/

theorem leads_of_mem_serve (hput : Puts put) {fuel : Nat} {b : α}
    (h : b ∈ serve put next fuel seen pending) : ∃ a ∈ pending, Leads next a b := by
  induction fuel generalizing seen pending with
  | zero => cases h
  | succ fuel ih =>
    cases pending with
    | nil => cases h
    | cons a pending =>
      rcases List.mem_cons.mp h with rfl | h
      · exact ⟨b, List.mem_cons_self, leads_refl next b⟩
      · obtain ⟨c, hc, hcb⟩ := ih h
        rw [(hput _ _).mem_iff, List.mem_append] at hc
        rcases hc with hc | hc
        · have hac := ((mem_fresh_iff _ _ _).mp hc).1
          exact ⟨a, List.mem_cons_self, Relation.ReflTransGen.head hac hcb⟩
        · exact ⟨c, List.mem_cons_of_mem a hc, hcb⟩

/-- with fuel for every place the search comes to an end -/
theorem Underway.over (hput : Puts put) (hU : ClosedUnder next U)
    (h : Underway next U done seen pending) {fuel : Nat} (hfuel : U.length ≤ fuel + done.length) :
    ∃ met, Underway next U (done ++ serve put next fuel seen pending) met [] := by
  induction fuel generalizing done seen pending with
  | zero =>
    obtain rfl := h.pending_eq_nil (by omega)
    rw [serve, List.append_nil]
    exact ⟨seen, h⟩
  | succ fuel ih =>
    cases pending with
    | nil =>
      rw [serve, List.append_nil]
      exact ⟨seen, h⟩
    | cons a pending =>
      have hlen : U.length ≤ fuel + (done ++ [a]).length := by
        rw [List.length_append, List.length_singleton]
        omega
      have hover := ih (h.step hput hU) hlen
      rwa [List.append_assoc] at hover

section
variable (hput : Puts put) (hU : ClosedUnder next U) {fuel : Nat} (hfuel : U.length ≤ fuel) {a : α}
  (ha : a ∈ U)
include hput hU hfuel ha

theorem nodup_serve : (serve put next fuel [a] [a]).Nodup := by
  obtain ⟨_, hover⟩ := (underway_start ha).over hput hU hfuel
  exact hover.once

/-- the places that are served are those that steps lead to -/
theorem mem_serve_iff (b : α) : b ∈ serve put next fuel [a] [a] ↔ Leads next a b := by
  constructor
  · intro h
    obtain ⟨c, hc, hcb⟩ := leads_of_mem_serve hput h
    rwa [List.mem_singleton.mp hc] at hcb
  · intro h
    have hstart : Underway next U [] [a] [a] := underway_start ha
    obtain ⟨_, hover⟩ := hstart.over hput hU hfuel
    have hpos : 0 < U.length := List.length_pos_of_mem ha
    obtain ⟨n, rfl⟩ : ∃ n, fuel = n + 1 := ⟨fuel - 1, by omega⟩
    exact h.hand_on (fun c d hc hd => hover.closed c hc d hd) List.mem_cons_self

/-- in whatever order places are served, they are those of all layers -/
theorem serve_perm_spread {fuel' : Nat} (hfuel' : U.length ≤ fuel') :
    (serve put next fuel [a] [a]).Perm (spread next fuel' [] [a]) := by
  refine (List.perm_ext_iff_of_nodup (nodup_serve hput hU hfuel ha) (nodup_spread fuel' a)).mpr ?_
  intro b
  rw [mem_serve_iff hput hU hfuel ha, mem_spread_iff hU hfuel' ha]

end

/-! ## the order of a queue -/

theorem serve_congr {seen' : List α} (h : ∀ b, b ∈ seen ↔ b ∈ seen') (fuel : Nat) :
    serve put next fuel seen pending = serve put next fuel seen' pending := by
  induction fuel generalizing seen seen' pending with
  | zero => rfl
  | succ fuel ih =>
    cases pending with
    | nil => rfl
    | cons a pending =>
      have hseen : ∀ b, b ∈ fresh seen (next a) ++ seen ↔ b ∈ fresh seen (next a) ++ seen' := by
        intro b
        rw [List.mem_append, List.mem_append, h]
      rw [serve, serve, ← fresh_congr h, ih hseen]

variable (next) in
/-- a queue serves a whole layer before it serves what the layer leads to -/
theorem serve_enqueue_append (fuel : Nat) (seen layer pending : List α) :
    serve enqueue next (layer.length + fuel) seen (layer ++ pending) =
      layer ++ serve enqueue next fuel (fresh seen (layer.flatMap next) ++ seen)
        (pending ++ fresh seen (layer.flatMap next)) := by
  induction layer generalizing seen pending with
  | nil =>
    rw [List.flatMap_nil, fresh_nil, List.append_nil, List.length_nil, Nat.zero_add]
    rfl
  | cons a layer ih =>
    have hfuel : (a :: layer).length + fuel = layer.length + fuel + 1 := by
      rw [List.length_cons]
      omega
    have hnew : fresh seen ((a :: layer).flatMap next) = fresh seen (next a) ++
        fresh (fresh seen (next a) ++ seen) (layer.flatMap next) := by
      rw [List.flatMap_cons, fresh_append]
    rw [hfuel, List.cons_append, serve, enqueue, List.append_assoc, ih, hnew, List.append_assoc]
    congr 2
    refine serve_congr (fun b => ?_) fuel
    simp only [List.mem_append]
    tauto

/-- from layer to layer a queue serves what `spread` lists -/
theorem serve_enqueue_eq_spread_of_layer (hU : ClosedUnder next U) {fuel fuel' : Nat}
    {layer : List α} (hnd : (layer ++ seen).Nodup) (hsub : layer ++ seen ⊆ U)
    (hfuel : U.length ≤ fuel + seen.length) (hfuel' : U.length ≤ fuel' + seen.length) :
    serve enqueue next fuel (layer ++ seen) layer = spread next fuel' seen layer := by
  induction fuel' generalizing fuel seen layer with
  | zero =>
    obtain rfl := layer_eq_nil hnd hsub (by omega)
    cases fuel <;> rfl
  | succ fuel' ih =>
    cases layer with
    | nil => cases fuel <;> rfl
    | cons a layer =>
      have hle := hnd.length_le_of_subset hsub
      rw [List.length_append] at hle
      obtain ⟨n, rfl⟩ : ∃ n, fuel = (a :: layer).length + n :=
        ⟨fuel - (a :: layer).length, by omega⟩
      have hserve := serve_enqueue_append next n (a :: layer ++ seen) (a :: layer) []
      rw [List.append_nil, List.nil_append] at hserve
      rw [hserve, spread_cons]
      congr 1
      exact ih (nodup_nextLayer_append next hnd) (nextLayer_append_subset hU hsub)
        (by rw [List.length_append]; omega)
        (by rw [List.length_append, List.length_cons]; omega)

theorem serve_enqueue_eq_spread (hU : ClosedUnder next U) {fuel fuel' : Nat}
    (hfuel : U.length ≤ fuel) (hfuel' : U.length ≤ fuel') {a : α} (ha : a ∈ U) :
    serve enqueue next fuel [a] [a] = spread next fuel' [] [a] := by
  have hsub : [a] ++ [] ⊆ U := by
    intro b hb
    rwa [List.mem_singleton.mp hb]
  exact serve_enqueue_eq_spread_of_layer hU (List.nodup_singleton a) hsub hfuel hfuel'

end

end PuyoChain
