import PuyoChain.Field.Text
import PuyoChain.Found.Basic
import PuyoChain.Plan.Basic
import PuyoChain.Record.Pieces

/-!
# Records of fields, plans and chains

A field is stored as its text form.
-/

namespace PuyoChain

open Value

instance : Record Field where
  write f := text f.text
  read
    | text s =>
      match Field.ofText s with
      | .ok f => .ok f
      | .error e => .error (.badText e)
    | _ => .error .mismatch

instance : Record Plan where
  write p :=
    object [("field", Record.write p.field), ("decisions", list (p.decisions.map Record.write)),
      ("rensa_result", Record.write p.result), ("num_chigiri", nat p.splits),
      ("frames_to_initiate", nat p.framesToInitiate), ("last_drop_frames", nat p.lastDropFrames)]
  read v := do
    match ← readFields ["field", "decisions", "rensa_result", "num_chigiri", "frames_to_initiate",
      "last_drop_frames"] v with
    | [f, ds, r, n, i, l] =>
      .ok ⟨← Record.read f, ← readList Record.read ds, ← Record.read r, ← readCount n,
        ← readCount i, ← readCount l⟩
    | _ => .error .mismatch

instance : Record PossibleChain where
  write c :=
    object [("rensa_result", Record.write c.result),
      ("necessary_puyo_set", Record.write c.additions)]
  read v := do
    match ← readFields ["rensa_result", "necessary_puyo_set"] v with
    | [r, l] => .ok ⟨← Record.read r, ← Record.read l⟩
    | _ => .error .mismatch

instance : Record FeasibleChain where
  write c :=
    object [("rensa_result", Record.write c.result),
      ("initiating_frames", nat c.initiatingFrames)]
  read v := do
    match ← readFields ["rensa_result", "initiating_frames"] v with
    | [r, n] => .ok ⟨← Record.read r, ← readCount n⟩
    | _ => .error .mismatch

end PuyoChain
