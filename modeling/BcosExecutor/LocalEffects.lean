import Mathlib.Data.Set.Basic

namespace LocalEffects

variable {κ ν Out Out' : Type*}

def AgreeOn (K : Set κ) (s s' : κ → Option ν) : Prop :=
  ∀ k ∈ K, s k = s' k

/-- An operation that looks at and changes the keys of a set only, and besides may put a fixed
value under a shared key where there is none. -/
structure Local (shared : κ) (v : ν) (K : Set κ)
    (f : (κ → Option ν) → Out × (κ → Option ν)) : Prop where
  frame : ∀ s k, k ∉ K → k ≠ shared → (f s).2 k = s k
  out_congr : ∀ s s', AgreeOn K s s' → (f s).1 = (f s').1
  congr : ∀ s s', AgreeOn K s s' → AgreeOn K (f s).2 (f s').2
  fills : ∃ fills : (κ → Option ν) → Bool, (∀ s s', AgreeOn K s s' → fills s = fills s') ∧
    ∀ s, (f s).2 shared = if fills s then (s shared).or (some v) else s shared

variable {shared : κ} {v : ν} {K L : Set κ} {f : (κ → Option ν) → Out × (κ → Option ν)}
  {g : (κ → Option ν) → Out' × (κ → Option ν)}

theorem Local.agreeOn (hf : Local shared v K f) (hKL : ∀ k ∈ L, k ∉ K) (hL : shared ∉ L)
    (s : κ → Option ν) : AgreeOn L (f s).2 s := by
  intro k hk
  have hne : k ≠ shared := fun heq => hL (heq ▸ hk)
  exact hf.frame s k (hKL k hk) hne

theorem Local.map {Out'' : Type*} (hf : Local shared v K f) (h : Out → Out'') :
    Local shared v K fun s => (h (f s).1, (f s).2) where
  frame := hf.frame
  out_congr := fun s s' hs => congrArg h (hf.out_congr s s' hs)
  congr := hf.congr
  fills := hf.fills

/-- Operations on disjoint sets of keys have the same outputs and the same results in either
order. -/
theorem Local.comm (hf : Local shared v K f) (hg : Local shared v L g)
    (hKL : ∀ k ∈ K, k ∉ L) (hK : shared ∉ K) (hL : shared ∉ L) (s : κ → Option ν) :
    (f (g s).2).1 = (f s).1 ∧ (g (f s).2).1 = (g s).1 ∧ (f (g s).2).2 = (g (f s).2).2 := by
  have hLK : ∀ k ∈ L, k ∉ K := fun k hl hk => hKL k hk hl
  have hgs := hg.agreeOn hKL hK s
  have hfs := hf.agreeOn hLK hL s
  refine ⟨hf.out_congr _ _ hgs, hg.out_congr _ _ hfs, funext fun k => ?_⟩
  by_cases hshared : k = shared
  · subst hshared
    obtain ⟨fillsF, hcongrF, hfillF⟩ := hf.fills
    obtain ⟨fillsG, hcongrG, hfillG⟩ := hg.fills
    rw [hfillF, hfillG, hfillG, hfillF, hcongrF _ _ hgs, hcongrG _ _ hfs]
    cases fillsF s <;> cases fillsG s <;> cases s k <;> rfl
  · by_cases hk : k ∈ K
    · rw [hf.congr _ _ hgs k hk, hg.frame _ k (hKL k hk) hshared]
    · rw [hf.frame _ k hk hshared]
      by_cases hl : k ∈ L
      · rw [hg.congr _ _ hfs k hl]
      · rw [hg.frame _ k hl hshared, hg.frame _ k hl hshared, hf.frame _ k hk hshared]

end LocalEffects
