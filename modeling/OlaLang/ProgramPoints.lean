import OlaLang.Liveness
import OlaLang.Machine

/-! Program points under insertions: the layout of the instructions, the points allotted to them,
and the renumbering of a block in which two neighbours leave no room. -/
namespace OlaLang
namespace Codegen
namespace ProgramPoints

open Liveness

abbrev InstId := ℕ

/-- The part of the function and of its liveness that an insertion changes: `instToPP` and
`ranges` are maps, their latest entry for a key counts. -/
structure Numbering where
  layout : List (List InstId)
  instToPP : List (InstId × ProgramPoint)
  ranges : List (LReg × List LiveSegment)
  deriving DecidableEq

/-- An unsigned 32-bit result; one that does not fit stops a build with overflow checks, and wraps
in one without. -/
def u32 (n : ℕ) : Except Fault ℕ := if n < 2^32 then .ok n else .error .panic

/-- `ProgramPoint::between` -/
def between (prev next : ProgramPoint) : Except Fault (Option ProgramPoint) :=
  if prev.block ≠ next.block then .ok none
  else if prev.inst > next.inst then .ok none
  else if next.inst - prev.inst ≤ 1 then .ok none
  else (u32 (next.inst + prev.inst)).map fun sum => some ⟨prev.block,sum/2⟩

/-- What `recompute_program_points_after` does to one point. -/
def shift (start : ProgramPoint) (base : ℕ) (pp : ProgramPoint) : ProgramPoint :=
  if pp.block = start.block ∧ start.inst ≤ pp.inst then
    ⟨pp.block,base + (pp.inst-start.inst)*STEP⟩
  else pp

namespace Numbering

def insts (s : Numbering) (block : BasicBlockId) : List InstId := (s.layout[block]?).getD []

def point? (s : Numbering) (i : InstId) : Option ProgramPoint := s.instToPP.lookup i

def pointOf (s : Numbering) (i : InstId) : Except Fault ProgramPoint :=
  (s.point? i).elim (.error .panic) .ok

/-- The points of the instructions and the ends of the live segments. -/
def points (s : Numbering) : List ProgramPoint :=
  s.instToPP.map Prod.snd ++
    s.ranges.flatMap fun range => range.2.flatMap fun seg => [seg.start,seg.stop]

def mapPoints (g : ProgramPoint → ProgramPoint) (s : Numbering) : Numbering where
  layout := s.layout
  instToPP := s.instToPP.map fun entry => (entry.1,g entry.2)
  ranges := s.ranges.map fun range =>
    (range.1,range.2.map fun seg => ⟨g seg.start,g seg.stop⟩)

/-- The points of the block from `start` on are below 2^32 when they are moved. -/
def Fits (s : Numbering) (start : ProgramPoint) (base : ℕ) : Prop :=
  ∀ pp ∈ s.points, pp.block = start.block → start.inst ≤ pp.inst →
    base + (pp.inst-start.inst)*STEP < 2^32

instance (s : Numbering) (start : ProgramPoint) (base : ℕ) : Decidable (s.Fits start base) :=
  inferInstanceAs (Decidable (∀ pp ∈ s.points, _))

/-- `recompute_program_points_after` -/
def recomputeProgramPointsAfter (s : Numbering) (start : ProgramPoint) (addOneMoreStep : Bool) :
    Except Fault Numbering :=
  let base := start.inst + if addOneMoreStep then STEP else 0
  if base < 2^32 ∧ s.Fits start base then .ok (s.mapPoints (shift start base))
  else .error .panic

end Numbering

def nextInstOf (i : InstId) : List InstId → Option InstId
  | [] => none
  | x::rest => if x = i then rest.head? else nextInstOf i rest

def prevInstOf (i : InstId) : List InstId → Option InstId
  | x::y::rest => if y = i then some x else prevInstOf i (y::rest)
  | _ => none

def placeAfter (target inst : InstId) : List InstId → List InstId
  | [] => []
  | x::rest => if x = target then x::inst::rest else x::placeAfter target inst rest

def placeBefore (target inst : InstId) : List InstId → List InstId
  | [] => []
  | x::rest => if x = target then inst::x::rest else x::placeBefore target inst rest

/-- `insert_inst_after`; the fuel bounds the renumberings. -/
def insertInstAfter : ℕ → InstId → InstId → BasicBlockId → Numbering → Except Fault Numbering
  | 0, _, _, _, _ => .error .diverge
  | fuel+1, after, inst, block, s => do
    let afterPP ← s.pointOf after
    match nextInstOf after (s.insts block) with
    | none => .ok s
    | some next => do
      let nextPP ← s.pointOf next
      let room ← between afterPP nextPP
      match room with
      | some pp => .ok {
          layout := s.layout.modify block (placeAfter after inst)
          instToPP := (inst,pp)::s.instToPP
          ranges := s.ranges }
      | none => do
        let s ← s.recomputeProgramPointsAfter afterPP false
        insertInstAfter fuel after inst block s

/-- The point before an instruction: that of the previous one, or the head of the block, whose
points are moved first. -/
def prevPoint (before : InstId) (beforePP : ProgramPoint) (block : BasicBlockId) (s : Numbering) :
    Except Fault (ProgramPoint × Numbering) :=
  match prevInstOf before (s.insts block) with
  | some prev => (s.pointOf prev).map fun pp => (pp,s)
  | none => do
    let s ← s.recomputeProgramPointsAfter beforePP true
    if 0 < beforePP.inst then .ok (⟨beforePP.block,0⟩,s) else .error .panic

/-- `insert_inst_before` -/
def insertInstBefore : ℕ → InstId → InstId → BasicBlockId → Numbering → Except Fault Numbering
  | 0, _, _, _, _ => .error .diverge
  | fuel+1, before, inst, block, s => do
    let beforePP ← s.pointOf before
    let (prevPP,s) ← prevPoint before beforePP block s
    let room ← between prevPP beforePP
    match room with
    | some pp => .ok {
        layout := s.layout.modify block (placeBefore before inst)
        instToPP := (inst,pp)::s.instToPP
        ranges := s.ranges }
    | none => do
      let s ← s.recomputeProgramPointsAfter beforePP false
      insertInstBefore fuel before inst block s

/-! ### The first numbering -/

def numberBlock (block : ℕ) : ℕ → List InstId → Except Fault (List (InstId × ProgramPoint))
  | _, [] => .ok []
  | instNum, i::rest => do
    let next ← u32 (instNum+STEP)
    let others ← numberBlock block next rest
    .ok ((i,⟨block,instNum⟩)::others)

/-- `compute_program_points`, for the instructions. -/
def numberBlocks : ℕ → List (List InstId) → Except Fault (List (InstId × ProgramPoint))
  | _, [] => .ok []
  | block, insts::rest => do
    let blockNum ← u32 block
    let here ← numberBlock blockNum STEP insts
    let others ← numberBlocks (block+1) rest
    .ok (here ++ others)

/-! ### Sequences of insertions -/

/-- What happens to the numbering of a function: an instruction that was just created is inserted
next to another one, or the allocator replaces the live ranges. -/
inductive Op
  | after (target inst : InstId) (block : BasicBlockId)
  | before (target inst : InstId) (block : BasicBlockId)
  | ranges (ranges : List (LReg × List LiveSegment))

def step (fuel : ℕ) : Op → Numbering → Except Fault Numbering
  | .after target inst block, s => insertInstAfter fuel target inst block s
  | .before target inst block, s => insertInstBefore fuel target inst block s
  | .ranges ranges, s => .ok { s with ranges := ranges }

/-- The layout the operation asks for. -/
def Op.place : Op → List (List InstId) → List (List InstId)
  | .after target inst block, layout => layout.modify block (placeAfter target inst)
  | .before target inst block, layout => layout.modify block (placeBefore target inst)
  | .ranges _, layout => layout

/-- The target stands in the block, and the instruction is a new one. -/
def Op.Valid : Op → Numbering → Prop
  | .after target inst block, s | .before target inst block, s =>
    target ∈ s.insts block ∧ inst ∉ s.layout.flatten
  | .ranges _, _ => True

instance (op : Op) (s : Numbering) : Decidable (op.Valid s) := match op with
  | .after .. | .before .. => inferInstanceAs (Decidable (_ ∧ _))
  | .ranges _ => inferInstanceAs (Decidable True)

/-- The step ends in `t`. -/
def Steps (s : Numbering) (op : Op) (t : Numbering) : Prop := ∃ fuel, step fuel op s = .ok t

/-- The points of a block increase in the order of the layout, from its head on. -/
def Rising (s : Numbering) (block : BasicBlockId) (insts : List InstId) : Prop :=
  ∃ ns : List ℕ, insts.map s.point? = ns.map (fun n => some ⟨block,n⟩) ∧
    (0::ns).Pairwise (· < ·)

def Increasing (s : Numbering) : Prop :=
  ∀ block insts, s.layout[block]? = some insts → Rising s block insts

/-- Every step of the run ends, places its instruction, and leaves increasing points. -/
def RunOk : List Op → Numbering → Prop
  | [], _ => True
  | op::rest, s => op.Valid s →
    ∃ t, Steps s op t ∧ t.layout = op.place s.layout ∧ Increasing t ∧ RunOk rest t

end ProgramPoints
end Codegen
end OlaLang
