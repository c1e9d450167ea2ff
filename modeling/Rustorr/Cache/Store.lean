import Rustorr.Cache.Layout
import Rustorr.Lib.Mealy
import Mathlib.Data.Option.Defs

/-! The interface of a backing store (`store.rs`) and runs of its operations. -/

namespace Rustorr

open Cache (Error)

/-- The operations of a backing store with states in `σ`. What the outside
world does to a call, such as which file-system steps fail, comes from `ε`. -/
structure PieceStore (ε σ : Type) where
  openTorrent : ε → InfoHash → TorrentLayout → σ → Except Error Recovered × σ
  write : ε → InfoHash → FileIndex → U64 → List UInt8 → σ → Except Error ℕ × σ
  read : ε → InfoHash → FileIndex → U64 → ℕ → σ → Except Error (List UInt8)
  remove : ε → InfoHash → σ → Except Error Unit × σ
  pieceCompleted : ε → InfoHash → PieceIndex → σ → Except Error Unit × σ

theorem optionRel_cases {α β : Type} {R : α → β → Prop} {a : Option α} {b : Option β}
    (h : Option.Rel R a b) : (a = none ∧ b = none) ∨ ∃ x y, a = some x ∧ b = some y ∧ R x y := by
  cases h with
  | none => exact Or.inl ⟨rfl, rfl⟩
  | some hxy => exact Or.inr ⟨_, _, rfl, rfl, hxy⟩

namespace PieceStore

inductive Op
  | openTorrent (torrent : InfoHash) (layout : TorrentLayout)
  | write (torrent : InfoHash) (file : FileIndex) (offset : U64) (data : List UInt8)
  | read (torrent : InfoHash) (file : FileIndex) (offset : U64) (len : ℕ)
  | remove (torrent : InfoHash)
  | pieceCompleted (torrent : InfoHash) (piece : PieceIndex)
  deriving DecidableEq

inductive Answer
  | recovered (value : Recovered)
  | added (bytes : ℕ)
  | bytes (data : List UInt8)
  | done
  deriving DecidableEq

abbrev Reply : Type := Except Error Answer

variable {ε σ : Type} (store : PieceStore ε σ)

def apply (env : ε) (s : σ) : Op → Reply × σ
  | .openTorrent torrent layout =>
    let (result, s) := store.openTorrent env torrent layout s
    (result.map .recovered, s)
  | .write torrent file offset data =>
    let (result, s) := store.write env torrent file offset data s
    (result.map .added, s)
  | .read torrent file offset len => ((store.read env torrent file offset len s).map .bytes, s)
  | .remove torrent =>
    let (result, s) := store.remove env torrent s
    (result.map fun _ => .done, s)
  | .pieceCompleted torrent piece =>
    let (result, s) := store.pieceCompleted env torrent piece s
    (result.map fun _ => .done, s)

/-- The replies to a sequence of operations and the state after it. -/
def run (env : ε) (s : σ) (ops : List Op) : List Reply × σ := Mealy.run (store.apply env) s ops

/-- The state after a sequence of operations. -/
def after (env : ε) (s : σ) (ops : List Op) : σ := Mealy.after (store.apply env) s ops

end PieceStore

end Rustorr
