import SmcSim.DmaStreams
import SmcSim.SgraphBfs

/-!
# Counters of followers

What the teenage follower kernels for sparse and for dense graphs share.
-/

namespace SmcSim.Followers
open EffectPrograms CommandSpec DmaPrograms SgraphBfs

/-- `succ->followers++`. -/
def follow (followers : ℕ → ℕ) (succ : ℕ) : ℕ → ℕ :=
  Function.update followers succ ((followers succ + 1) % word)

def totalFollowers (followers : ℕ → ℕ) : ℕ → ℕ
  | 0 => 0
  | r + 1 => (totalFollowers followers r + followers r) % word

structure Result where
  followers : ℕ → ℕ
  sreg3 : ℕ

variable {Loc : Type} (loc : ℕ → Loc)

/-- A round of the last loop; the counter of node `r` is at `loc r`. -/
def addFollowers (r totalFollowers : ℕ) : DmaProg Loc ℕ := do
  let followers ← load (loc r)
  pure ((totalFollowers + followers) % word)

theorem wp_addFollowers [DecidableEq Loc] {R : Rules Loc}
    {Φ : (Loc → ℕ) → Prop} {w : World Loc} (hreading : Reading Φ w) (nodes : ℕ) :
    R.wp (Prog.forUp (addFollowers loc) nodes 0 0) w (fun sreg3 w' =>
      sreg3 = totalFollowers (w.field loc) nodes ∧ w' = w) := by
  refine wp_forUp _ (fun r total w' => total = totalFollowers (w.field loc) r ∧ w' = w) ?_
    nodes 0 0 w (zero_add _) ⟨rfl, rfl⟩
  rintro r total _ - ⟨rfl, rfl⟩
  exact wp_seq (wp_load hreading ⟨rfl, rfl⟩)

end SmcSim.Followers
