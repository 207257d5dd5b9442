import PuyoChain.Additions.Basic
import PuyoChain.ChainResult
import PuyoChain.ColumnMask
import PuyoChain.Decision
import PuyoChain.Record.Value
import PuyoChain.Strategy

/-!
# Records of the small types

Colors, decisions, pieces, queues, additions, color counts, outcomes, strategies and masks.
-/

namespace PuyoChain

open Value

instance : Record Color where
  write c := text c.name
  read := readName Color.ofName?

instance : Record Mode where
  write m := text m.name
  read := readName Mode.ofName?

instance : Record Purpose where
  write p := text p.name
  read := readName Purpose.ofName?

instance : Record ColumnMask where
  write m := nat m.bits.toNat
  read v := do
    let n ← readByte v
    .ok ⟨BitVec.ofNat 8 n⟩

instance : Record Decision where
  write d := object [("x", nat d.x), ("r", nat d.r)]
  read v := do
    match ← readFields ["x", "r"] v with
    | [x, r] => .ok ⟨← readByte x, ← readByte r⟩
    | _ => .error .mismatch

instance : Record Piece where
  write p := object [("axis", Record.write p.axis), ("child", Record.write p.child)]
  read v := do
    match ← readFields ["axis", "child"] v with
    | [a, c] => .ok ⟨← Record.read a, ← Record.read c⟩
    | _ => .error .mismatch

instance : Record PieceQueue where
  write q := object [("seq", list (q.pieces.map Record.write))]
  read v := do
    match ← readFields ["seq"] v with
    | [ps] => .ok ⟨← readList Record.read ps⟩
    | _ => .error .mismatch

instance : Record Addition where
  write a := object [("x", nat a.x), ("color", Record.write a.color)]
  read v := do
    match ← readFields ["x", "color"] v with
    | [x, c] => .ok ⟨← readCount x, ← Record.read c⟩
    | _ => .error .mismatch

instance : Record Additions where
  write l := object [("puyos", list (l.entries.map Record.write))]
  read v := do
    match ← readFields ["puyos"] v with
    | [es] => .ok ⟨← readList Record.read es⟩
    | _ => .error .mismatch

instance : Record ColorCount where
  write s :=
    object [("red", nat s.red), ("blue", nat s.blue), ("yellow", nat s.yellow),
      ("green", nat s.green)]
  read v := do
    match ← readFields ["red", "blue", "yellow", "green"] v with
    | [r, b, y, g] => .ok ⟨← readCount r, ← readCount b, ← readCount y, ← readCount g⟩
    | _ => .error .mismatch

instance : Record ChainResult where
  write r :=
    object [("chains", nat r.chains), ("score", nat r.score), ("frames", nat r.frames),
      ("quick", bool r.quick)]
  read v := do
    match ← readFields ["chains", "score", "frames", "quick"] v with
    | [c, s, f, q] => .ok ⟨← readCount c, ← readCount s, ← readCount f, ← readBool q⟩
    | _ => .error .mismatch

instance : Record Strategy where
  write s :=
    object [("mode", Record.write s.mode), ("max_complement_puyos", nat s.maxPuyos),
      ("max_height", nat s.maxHeight), ("allows_garbage", bool s.allowsGarbage)]
  read v := do
    match ← readFields ["mode", "max_complement_puyos", "max_height", "allows_garbage"] v with
    | [m, n, h, g] => .ok ⟨← Record.read m, ← readCount n, ← readCount h, ← readBool g⟩
    | _ => .error .mismatch

end PuyoChain
