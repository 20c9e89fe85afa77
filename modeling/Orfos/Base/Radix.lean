import Mathlib.Data.List.Induction
import Mathlib.Order.Nat

/-!
# Radix trees in a flat memory

A memory assigns to every node an entry for each index, and some entries point to another
node. A path of indices leads from a root to the node it ends in. In a forest no node is
reached twice, so writing an entry of the lowest level changes that entry and no other, and
hanging a blank node below an entry that points nowhere changes no entry at all.
-/

namespace Orfos.Base.Radix

variable {N I W : Type} {child : W → Option N} {mem mem' : N → I → W}

/-- The node that a path leads to. -/
def node (child : W → Option N) (mem : N → I → W) (r : N) : List I → Option N
  | [] => some r
  | i :: p => (child (mem r i)).bind fun n ↦ node child mem n p

/-- The entry at an index of the node at a path, and `z` where there is no node. -/
def entry (child : W → Option N) (mem : N → I → W) (z : W) (r : N) (p : List I) (i : I) : W :=
  (node child mem r p).elim z fun n ↦ mem n i

/-- The nodes at paths of length up to `d` from the roots in `R`. -/
def Reach (child : W → Option N) (mem : N → I → W) (R : N → Prop) (d : Nat) (n : N) : Prop :=
  ∃ r p, R r ∧ p.length ≤ d ∧ node child mem r p = some n

/-- Down to level `d` no node is reached from two roots or along two paths. -/
def Forest (child : W → Option N) (mem : N → I → W) (R : N → Prop) (d : Nat) : Prop :=
  ∀ r r' p p' n, R r → R r' → p.length ≤ d → p'.length ≤ d →
    node child mem r p = some n → node child mem r' p' = some n → r = r' ∧ p = p'

variable {R : N → Prop} {d : Nat} {r r₀ n n₀ f : N} {p p₀ : List I} {i i₀ : I} {z w : W}

@[simp] theorem node_nil : node child mem r [] = some r := rfl

theorem node_append (q : List I) :
    node child mem r (p ++ q) = (node child mem r p).bind fun n ↦ node child mem n q := by
  induction p generalizing r with
  | nil => rfl
  | cons i p ih => simp only [List.cons_append, node, Option.bind_assoc, ih]

theorem node_snoc :
    node child mem r (p ++ [i]) = (node child mem r p).bind fun n ↦ child (mem n i) := by
  rw [node_append]
  congr 1
  funext n
  simp [node]

/-- No path leaves a blank node. -/
theorem node_blank (hblank : ∀ i, mem f i = z) (hz : child z = none) (hp : p ≠ []) :
    node child mem f p = none := by
  cases p with
  | nil => exact absurd rfl hp
  | cons i p => rw [node, hblank, hz, Option.bind_none]

/-- Roots are reached. -/
theorem Reach.root (h : R r) : Reach child mem R d r := ⟨r, [], h, Nat.zero_le _, rfl⟩

/-- Paths depend on the entries above the lowest level only. -/
theorem node_congr (h : ∀ r p n i, R r → p.length < d → node child mem r p = some n →
    mem' n i = mem n i) (hr : R r) (hp : p.length ≤ d) :
    node child mem' r p = node child mem r p := by
  induction p using List.reverseRecOn with
  | nil => rfl
  | append_singleton p i ih =>
    rw [List.length_append, List.length_singleton] at hp
    rw [node_snoc, node_snoc, ih (by omega)]
    cases hn : node child mem r p with
    | none => rfl
    | some n => rw [Option.bind_some, Option.bind_some, h r p n i hr (by omega) hn]

section Store

variable (hf : Forest child mem R d) (h₀ : R r₀) (hl : p₀.length = d)
  (hn : node child mem r₀ p₀ = some n₀)
  (hm : ∀ n i, Reach child mem R d n → (n ≠ n₀ ∨ i ≠ i₀) → mem' n i = mem n i)

include hf h₀ hl hn hm

/-- A write to the lowest level leaves all paths alone. -/
theorem node_store (hr : R r) (hp : p.length ≤ d) :
    node child mem' r p = node child mem r p := by
  refine node_congr (fun r p n i hr hp hnode ↦ hm n i ⟨r, p, hr, hp.le, hnode⟩ (.inl ?_)) hr hp
  rintro rfl
  have hpath := (hf r r₀ p p₀ n hr h₀ hp.le hl.le hnode hn).2
  rw [hpath, hl] at hp
  exact absurd hp (lt_irrefl d)

/-- A write to the lowest level changes the entry it is for. -/
theorem entry_store (hw : mem' n₀ i₀ = w) : entry child mem' z r₀ p₀ i₀ = w := by
  rw [entry, node_store hf h₀ hl hn hm h₀ hl.le, hn]
  exact hw

/-- A write to the lowest level changes no other entry of it. -/
theorem entry_store_other (hr : R r) (hp : p.length = d)
    (hne : r ≠ r₀ ∨ p ≠ p₀ ∨ i ≠ i₀) :
    entry child mem' z r p i = entry child mem z r p i := by
  rw [entry, entry, node_store hf h₀ hl hn hm hr hp.le]
  cases hnode : node child mem r p with
  | none => rfl
  | some n =>
    refine hm n i ⟨r, p, hr, hp.le, hnode⟩ ?_
    by_cases he : n = n₀
    · subst he
      obtain ⟨rfl, rfl⟩ := hf r r₀ p p₀ n hr h₀ hp.le hl.le hnode hn
      simpa using hne
    · exact .inl he

end Store

section Link

variable (hf : Forest child mem R d) (h₀ : R r₀) (hl : p₀.length < d)
  (hn : node child mem r₀ p₀ = some n₀) (hc : child (mem n₀ i₀) = none)
  (hfresh : ¬ Reach child mem R d f) (hw : child (mem' n₀ i₀) = some f)
  (hblank : ∀ i, mem' f i = z) (hz : child z = none)
  (hm : ∀ n i, Reach child mem R d n → (n ≠ n₀ ∨ i ≠ i₀) → mem' n i = mem n i)

include hf h₀ hl hn hc hw hblank hz hm

/-- Hanging a blank node below an entry adds the path to that node. -/
theorem node_link [DecidableEq N] [DecidableEq I] (hr : R r) (hp : p.length ≤ d) :
    node child mem' r p =
      if r = r₀ ∧ p = p₀ ++ [i₀] then some f else node child mem r p := by
  induction p using List.reverseRecOn with
  | nil => simp
  | append_singleton p i ih =>
    rw [List.length_append, List.length_singleton] at hp
    rw [node_snoc, ih (by omega)]
    by_cases hpath : r = r₀ ∧ p = p₀ ++ [i₀]
    · obtain ⟨rfl, rfl⟩ := hpath
      have hbelow : node child mem r (p₀ ++ [i₀] ++ [i]) = none := by
        rw [node_snoc, node_snoc, hn, Option.bind_some, hc, Option.bind_none]
      have hlen : p₀ ++ [i₀] ++ [i] ≠ p₀ ++ [i₀] := by simp
      rw [if_pos ⟨rfl, rfl⟩, if_neg (fun h ↦ hlen h.2), hbelow, Option.bind_some, hblank, hz]
    · rw [if_neg hpath, node_snoc]
      cases hnode : node child mem r p with
      | none =>
        have hne : ¬ (r = r₀ ∧ p ++ [i] = p₀ ++ [i₀]) := by
          rintro ⟨rfl, h⟩
          rw [(List.append_inj' h rfl).1, hn] at hnode
          cases hnode
        rw [if_neg hne]
        rfl
      | some n =>
        have hreach : Reach child mem R d n := ⟨r, p, hr, by omega, hnode⟩
        rw [Option.bind_some, Option.bind_some]
        by_cases he : n = n₀ ∧ i = i₀
        · obtain ⟨rfl, rfl⟩ := he
          obtain ⟨rfl, rfl⟩ := hf r r₀ p p₀ n hr h₀ (by omega) hl.le hnode hn
          rw [if_pos ⟨rfl, rfl⟩, hw]
        · have hne : ¬ (r = r₀ ∧ p ++ [i] = p₀ ++ [i₀]) := by
            rintro ⟨rfl, h⟩
            obtain ⟨rfl, h'⟩ := List.append_inj' h rfl
            rw [hn] at hnode
            cases hnode
            exact he ⟨rfl, by simpa using h'⟩
          rw [if_neg hne, hm n i hreach (not_and_or.mp he)]

/-- Hanging a blank node below an entry changes no entry of the lowest level. -/
theorem entry_link [DecidableEq N] [DecidableEq I] (hr : R r) (hp : p.length = d) :
    entry child mem' z r p i = entry child mem z r p i := by
  rw [entry, entry, node_link hf h₀ hl hn hc hw hblank hz hm hr hp.le]
  split
  · next h =>
    obtain ⟨rfl, rfl⟩ := h
    rw [node_snoc, hn, Option.bind_some, hc]
    exact hblank i
  · cases hnode : node child mem r p with
    | none => rfl
    | some n =>
      refine hm n i ⟨r, p, hr, hp.le, hnode⟩ (.inl ?_)
      rintro rfl
      have hpath := (hf r r₀ p p₀ n hr h₀ hp.le hl.le hnode hn).2
      rw [hpath] at hp
      omega

include hfresh

/-- Hanging a blank node below an entry keeps a forest. -/
theorem forest_link [DecidableEq N] [DecidableEq I] : Forest child mem' R d := by
  have hnode := fun r p ↦ node_link (r := r) (p := p) hf h₀ hl hn hc hw hblank hz hm
  intro r r' p p' n hr hr' hp hp' h h'
  rw [hnode r p hr hp] at h
  rw [hnode r' p' hr' hp'] at h'
  split at h <;> split at h'
  · next ha hb => exact ⟨ha.1.trans hb.1.symm, ha.2.trans hb.2.symm⟩
  · cases h
    exact absurd ⟨r', p', hr', hp', h'⟩ hfresh
  · cases h'
    exact absurd ⟨r, p, hr, hp, h⟩ hfresh
  · exact hf r r' p p' n hr hr' hp hp' h h'

/-- The blank node is the only one that is reached in addition. -/
theorem reach_link [DecidableEq N] [DecidableEq I] :
    Reach child mem' R d n ↔ n = f ∨ Reach child mem R d n := by
  have hnode := fun r p ↦ node_link (r := r) (p := p) hf h₀ hl hn hc hw hblank hz hm
  constructor
  · rintro ⟨r, p, hr, hp, h⟩
    rw [hnode r p hr hp] at h
    split at h
    · cases h
      exact .inl rfl
    · exact .inr ⟨r, p, hr, hp, h⟩
  · rintro (rfl | ⟨r, p, hr, hp, h⟩)
    · have hlen : (p₀ ++ [i₀]).length ≤ d := by
        rw [List.length_append, List.length_singleton]
        omega
      exact ⟨r₀, p₀ ++ [i₀], h₀, hlen, by rw [hnode _ _ h₀ hlen, if_pos ⟨rfl, rfl⟩]⟩
    · refine ⟨r, p, hr, hp, ?_⟩
      rw [hnode r p hr hp, if_neg, h]
      rintro ⟨rfl, rfl⟩
      rw [node_snoc, hn, Option.bind_some, hc] at h
      cases h

end Link

section Plant

variable (hf : Forest child mem R d) (hfresh : ¬ Reach child mem R d f)
  (hblank : ∀ i, mem' f i = z) (hz : child z = none)
  (hm : ∀ n i, Reach child mem R d n → mem' n i = mem n i)

include hf hfresh hblank hz hm

/-- A blank node as a new root keeps a forest. -/
theorem forest_plant : Forest child mem' (fun r ↦ r = f ∨ R r) d := by
  have hold : ∀ {r p}, R r → p.length ≤ d → node child mem' r p = node child mem r p :=
    fun hr hp ↦ node_congr (fun r p n i hr hp hn ↦ hm n i ⟨r, p, hr, hp.le, hn⟩) hr hp
  have hnew : ∀ {p n}, node child mem' f p = some n → p = [] ∧ n = f := by
    intro p n h
    by_cases hp : p = []
    · subst hp
      cases h
      exact ⟨rfl, rfl⟩
    · rw [node_blank hblank hz hp] at h
      cases h
  intro r r' p p' n hr hr' hp hp' h h'
  rcases hr with rfl | hr <;> rcases hr' with rfl | hr'
  · exact ⟨rfl, (hnew h).1.trans (hnew h').1.symm⟩
  · rw [hold hr' hp', (hnew h).2] at h'
    exact absurd ⟨r', p', hr', hp', h'⟩ hfresh
  · rw [hold hr hp, (hnew h').2] at h
    exact absurd ⟨r, p, hr, hp, h⟩ hfresh
  · rw [hold hr hp] at h
    rw [hold hr' hp'] at h'
    exact hf r r' p p' n hr hr' hp hp' h h'

end Plant

end Orfos.Base.Radix
