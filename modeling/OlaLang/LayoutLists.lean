import OlaLang.LinkedLists
import Mathlib.Data.Option.Basic
import Mathlib.Data.Nat.Notation
import Mathlib.Logic.Function.Basic

/-! The layout of a function: maps of nodes with links, kept by the operations of the passes in
agreement with a list of blocks and one list of instructions for each. The layout of the IR has the
same operations up to the two insertions next to an instruction. -/
namespace OlaLang
namespace Codegen
namespace LayoutLists

open LinkedLists

abbrev BasicBlockId := ℕ
abbrev InstructionId := ℕ

structure BasicBlockNode where
  prev : Option BasicBlockId
  next : Option BasicBlockId
  firstInst : Option InstructionId
  lastInst : Option InstructionId
  deriving DecidableEq

structure InstructionNode where
  block : Option BasicBlockId
  prev : Option InstructionId
  next : Option InstructionId
  deriving DecidableEq

@[ext] structure Layout where
  basicBlocks : BasicBlockId → Option BasicBlockNode
  instructions : InstructionId → Option InstructionNode
  firstBlock : Option BasicBlockId
  lastBlock : Option BasicBlockId

namespace Layout

def new : Layout := ⟨fun _ => none,fun _ => none,none,none⟩

def setBlock (block : BasicBlockId) (node : BasicBlockNode) (l : Layout) : Layout :=
  { l with basicBlocks := Function.update l.basicBlocks block (some node) }

def setInst (inst : InstructionId) (node : InstructionNode) (l : Layout) : Layout :=
  { l with instructions := Function.update l.instructions inst (some node) }

/-- `get_mut(&block).unwrap()` with what is done to the node. -/
def updateBlock (block : BasicBlockId) (f : BasicBlockNode → BasicBlockNode) (l : Layout) :
    Option Layout :=
  (l.basicBlocks block).map fun node => l.setBlock block (f node)

/-- `get_mut(&inst).unwrap()` with what is done to the node. -/
def updateInst (inst : InstructionId) (f : InstructionNode → InstructionNode) (l : Layout) :
    Option Layout :=
  (l.instructions inst).map fun node => l.setInst inst (f node)

/-- `entry(inst).or_insert(node).block = Some(block)`. -/
def entryInst (inst : InstructionId) (node : InstructionNode) (block : BasicBlockId)
    (l : Layout) : Layout :=
  l.setInst inst { (l.instructions inst).getD node with block := some block }

def appendBlock (block : BasicBlockId) (l : Layout) : Option Layout := do
  let l := l.setBlock block ((l.basicBlocks block).getD ⟨l.lastBlock,none,none,none⟩)
  let l ← match l.lastBlock with
    | some lastBlock => do
      let l ← l.updateBlock lastBlock fun node => { node with next := some block }
      l.updateBlock block fun node => { node with prev := some lastBlock }
    | none => some l
  let l := { l with lastBlock := some block }
  some (if l.firstBlock.isNone then { l with firstBlock := some block } else l)

def insertInstAtStart (inst : InstructionId) (block : BasicBlockId) (l : Layout) :
    Option Layout := do
  let l := l.entryInst inst ⟨some block,none,none⟩ block
  let node ← l.basicBlocks block
  let l ← match node.firstInst with
    | some firstInst => do
      let l ← l.updateInst firstInst fun node => { node with prev := some inst }
      l.updateInst inst fun node => { node with next := some firstInst }
    | none => some l
  let l ← l.updateBlock block fun node => { node with firstInst := some inst }
  let node ← l.basicBlocks block
  if node.lastInst.isNone then l.updateBlock block fun node => { node with lastInst := some inst }
  else some l

def insertInstBefore (before inst : InstructionId) (block : BasicBlockId) (l : Layout) :
    Option Layout := do
  let beforeNode ← l.instructions before
  let l := l.entryInst inst ⟨some block,beforeNode.prev,some before⟩ block
  let beforeNode ← l.instructions before
  let l ← match beforeNode.prev with
    | some prev => l.updateInst prev fun node => { node with next := some inst }
    | none => some l
  let l ← l.updateInst before fun node => { node with prev := some inst }
  let node ← l.basicBlocks block
  if node.firstInst = some before then
    l.updateBlock block fun node => { node with firstInst := some inst }
  else some l

/-- The last instruction of the block stays what it was, also when `after` is the last one. -/
def insertInstAfter (after inst : InstructionId) (block : BasicBlockId) (l : Layout) :
    Option Layout := do
  let afterNode ← l.instructions after
  let l := l.entryInst inst ⟨some block,some after,afterNode.next⟩ block
  let afterNode ← l.instructions after
  let l ← match afterNode.next with
    | some next => l.updateInst next fun node => { node with prev := some inst }
    | none => some l
  l.updateInst after fun node => { node with next := some inst }

def appendInst (inst : InstructionId) (block : BasicBlockId) (l : Layout) : Option Layout := do
  let node ← l.basicBlocks block
  let l := l.entryInst inst ⟨some block,node.lastInst,none⟩ block
  let l ← match node.lastInst with
    | some lastInst => do
      let l ← l.updateInst lastInst fun node => { node with next := some inst }
      l.updateInst inst fun node => { node with prev := some lastInst }
    | none => some l
  let l ← l.updateBlock block fun node => { node with lastInst := some inst }
  let node ← l.basicBlocks block
  if node.firstInst.isNone then l.updateBlock block fun node => { node with firstInst := some inst }
  else some l

/-- The match on the previous instruction: it, or the block, goes on with `next`. -/
def setNext (block : BasicBlockId) (prev next : Option InstructionId) (l : Layout) :
    Option Layout :=
  match prev with
  | some prev => l.updateInst prev fun node => { node with next := next }
  | none => l.updateBlock block fun node => { node with firstInst := next }

/-- The match on the next instruction: `prev` comes before it, or is the last of the block. -/
def setPrev (block : BasicBlockId) (prev next : Option InstructionId) (l : Layout) :
    Option Layout :=
  match next with
  | some next => l.updateInst next fun node => { node with prev := prev }
  | none => l.updateBlock block fun node => { node with lastInst := prev }

/-- An instruction that is in no block is left alone: the answer is then `None`, which is no
panic. So it would be on the way if a neighbour were missing. -/
def removeInst (inst : InstructionId) (l : Layout) : Option Layout := do
  let node ← l.instructions inst
  match node.block with
  | none => some l
  | some block =>
    let l := l.setInst inst ⟨none,none,none⟩
    match l.setNext block node.prev node.next with
    | none => some l
    | some l => some ((l.setPrev block node.prev node.next).getD l)

def nextBlockOf (l : Layout) (block : BasicBlockId) : Option BasicBlockId :=
  (l.basicBlocks block).bind (·.next)

def prevBlockOf (l : Layout) (block : BasicBlockId) : Option BasicBlockId :=
  (l.basicBlocks block).bind (·.prev)

def firstInstOf (l : Layout) (block : BasicBlockId) : Option InstructionId :=
  (l.basicBlocks block).bind (·.firstInst)

def lastInstOf (l : Layout) (block : BasicBlockId) : Option InstructionId :=
  (l.basicBlocks block).bind (·.lastInst)

def prevInstOf (l : Layout) (inst : InstructionId) : Option InstructionId :=
  (l.instructions inst).bind (·.prev)

def nextInstOf (l : Layout) (inst : InstructionId) : Option InstructionId :=
  (l.instructions inst).bind (·.next)

def blockOf (l : Layout) (inst : InstructionId) : Option BasicBlockId :=
  (l.instructions inst).bind (·.block)

end Layout

/-- The operations on a layout. -/
inductive Op
  | appendBlock (block : BasicBlockId)
  | appendInst (inst : InstructionId) (block : BasicBlockId)
  | insertInstAtStart (inst : InstructionId) (block : BasicBlockId)
  | insertInstBefore (before inst : InstructionId) (block : BasicBlockId)
  | insertInstAfter (after inst : InstructionId) (block : BasicBlockId)
  | removeInst (inst : InstructionId)
  deriving DecidableEq

def Op.run : Op → Layout → Option Layout
  | appendBlock block => Layout.appendBlock block
  | appendInst inst block => Layout.appendInst inst block
  | insertInstAtStart inst block => Layout.insertInstAtStart inst block
  | insertInstBefore before inst block => Layout.insertInstBefore before inst block
  | insertInstAfter after inst block => Layout.insertInstAfter after inst block
  | removeInst inst => Layout.removeInst inst

/-- A sequence of operations, which a panic ends. -/
def run : List Op → Layout → Option Layout
  | [], l => some l
  | op::ops, l => (op.run l).bind (run ops)

/-! ### The lists -/

/-- The blocks in their order, the instructions of each in their order, and the instructions that
have been put into some block so far. -/
structure Lists where
  blocks : List BasicBlockId
  insts : BasicBlockId → List InstructionId
  seen : List InstructionId

namespace Lists

def empty : Lists := ⟨[],fun _ => [],[]⟩

def insertBefore (before inst : InstructionId) : List InstructionId → List InstructionId
  | [] => []
  | x::xs => if x = before then inst::x::xs else x::insertBefore before inst xs

def insertAfter (after inst : InstructionId) : List InstructionId → List InstructionId
  | [] => []
  | x::xs => if x = after then x::inst::xs else x::insertAfter after inst xs

/-- The list of one block is exchanged, for one with a further instruction. -/
def put (m : Lists) (inst : InstructionId) (block : BasicBlockId) (insts : List InstructionId) :
    Lists :=
  { m with insts := Function.update m.insts block insts,seen := inst::m.seen }

end Lists

namespace Op

/-- What an operation does to the lists. -/
def apply : Op → Lists → Lists
  | appendBlock block, m => { m with blocks := m.blocks ++ [block] }
  | appendInst inst block, m => m.put inst block (m.insts block ++ [inst])
  | insertInstAtStart inst block, m => m.put inst block (inst::m.insts block)
  | insertInstBefore before inst block, m =>
    m.put inst block (Lists.insertBefore before inst (m.insts block))
  | insertInstAfter after inst block, m =>
    m.put inst block (Lists.insertAfter after inst (m.insts block))
  | removeInst inst, m => { m with insts := fun b => (m.insts b).erase inst }

/-- The operations the passes perform: blocks are appended once; an instruction is appended or put
at the start when it is in no block, and put next to an instruction of the named block when it is
new; `insert_inst_after`, which only the spiller uses, only in front of another instruction; what
is removed has been put into a block before. The parser also calls `append_block`: for a text with two
equal labels it appends a block twice, and never gets past `set_blocks_info` with the links that this
leaves, so that no pass sees such a layout. -/
def Performed : Op → Lists → Prop
  | appendBlock block, m => block ∉ m.blocks
  | appendInst inst block, m => block ∈ m.blocks ∧ ∀ b, inst ∉ m.insts b
  | insertInstAtStart inst block, m => block ∈ m.blocks ∧ ∀ b, inst ∉ m.insts b
  | insertInstBefore before inst block, m => before ∈ m.insts block ∧ inst ∉ m.seen
  | insertInstAfter after inst block, m =>
    after ∈ m.insts block ∧ (m.insts block).getLast? ≠ some after ∧ inst ∉ m.seen
  | removeInst inst, m => inst ∈ m.seen

end Op

/-- Each operation is one the passes perform on what the ones before have left. -/
def PerformedAll : List Op → Lists → Prop
  | [], _ => True
  | op::ops, m => op.Performed m ∧ PerformedAll ops (op.apply m)

/-- The layout represents the lists: all first and last pointers, all links and the block of every
instruction are theirs, and no instruction or block is in them twice. -/
structure Represents (l : Layout) (m : Lists) : Prop where
  blocks_nodup : m.blocks.Nodup
  firstBlock : l.firstBlock = m.blocks.head?
  lastBlock : l.lastBlock = m.blocks.getLast?
  blockNode : ∀ b, (l.basicBlocks b).isSome ↔ b ∈ m.blocks
  blockLinks : Linked l.prevBlockOf l.nextBlockOf m.blocks
  insts_nodup : ∀ b, (m.insts b).Nodup
  firstInst : ∀ b, l.firstInstOf b = (m.insts b).head?
  lastInst : ∀ b, l.lastInstOf b = (m.insts b).getLast?
  instLinks : ∀ b, Linked l.prevInstOf l.nextInstOf (m.insts b)
  block : ∀ i b, l.blockOf i = some b ↔ i ∈ m.insts b
  instNode : ∀ i, (l.instructions i).isSome ↔ i ∈ m.seen
  detached : ∀ i, l.blockOf i = none → l.prevInstOf i = none ∧ l.nextInstOf i = none

/-! ### One step -/

namespace Layout

/-- The instruction has no node, or one without a block and links. -/
def Free (l : Layout) (inst : InstructionId) : Prop :=
  ∀ node, l.instructions inst = some node → node = ⟨none,none,none⟩

/-- The layout with `inst` in the block between `p` and `n`. -/
def place (l : Layout) (inst : InstructionId) (block : BasicBlockId)
    (p n : Option InstructionId) : Layout :=
  { l with
    instructions := fun y => if y = inst then some ⟨some block,p,n⟩ else
      (l.instructions y).map fun node => { node with
        prev := if n = some y then some inst else node.prev
        next := if p = some y then some inst else node.next }
    basicBlocks := fun b => if b = block then
      (l.basicBlocks b).map fun node => { node with
        firstInst := if p = none then some inst else node.firstInst
        lastInst := if n = none then some inst else node.lastInst }
      else l.basicBlocks b }

variable {l : Layout} {inst : InstructionId} {block : BasicBlockId} {node : BasicBlockNode}

@[simp] theorem setBlock_self : (l.setBlock block node).basicBlocks block = some node := by
  simp [setBlock]

@[simp] theorem setInst_basicBlocks (node : InstructionNode) :
    (l.setInst inst node).basicBlocks = l.basicBlocks := rfl

@[simp] theorem setBlock_instructions : (l.setBlock block node).instructions = l.instructions := rfl

theorem updateBlock_eq (f : BasicBlockNode → BasicBlockNode) (h : l.basicBlocks block = some node) :
    l.updateBlock block f = some (l.setBlock block (f node)) := by rw [updateBlock,h]; rfl

theorem updateInst_eq {node : InstructionNode} (f : InstructionNode → InstructionNode)
    (h : l.instructions inst = some node) :
    l.updateInst inst f = some (l.setInst inst (f node)) := by rw [updateInst,h]; rfl

/-- What `entry` leaves in the node of a free instruction without links of its own. -/
theorem entryInst_free (h : l.Free inst) :
    l.entryInst inst ⟨some block,none,none⟩ block = l.setInst inst ⟨some block,none,none⟩ := by
  cases hnode : l.instructions inst with
  | none => rw [entryInst,hnode]; rfl
  | some old => rw [entryInst,hnode,h old hnode]; rfl

theorem exists_entryInst (h : l.Free inst) (p : Option InstructionId) :
    ∃ q, l.entryInst inst ⟨some block,p,none⟩ block = l.setInst inst ⟨some block,q,none⟩ := by
  cases hnode : l.instructions inst with
  | none => exact ⟨p,by rw [entryInst,hnode]; rfl⟩
  | some old => exact ⟨none,by rw [entryInst,hnode,h old hnode]; rfl⟩

theorem entryInst_new {node : InstructionNode} (h : l.instructions inst = none)
    (hblock : node.block = some block) : l.entryInst inst node block = l.setInst inst node := by
  rw [entryInst,h,Option.getD_none,← hblock]

theorem insertInstAtStart_eq (hfree : l.Free inst) (hblock : l.basicBlocks block = some node)
    (hends : node.firstInst = none ↔ node.lastInst = none)
    (hfirst : ∀ t ∈ node.firstInst, t ≠ inst ∧ (l.instructions t).isSome) :
    l.insertInstAtStart inst block = some (l.place inst block none node.firstInst) := by
  cases hf : node.firstInst with
  | none =>
    have hlast := hends.mp hf
    simp only [insertInstAtStart,entryInst_free hfree,setInst_basicBlocks,hblock,hf,
      Option.bind_eq_bind,Option.bind_some,updateBlock,Option.map_some,setBlock_self,hlast,
      Option.isNone_none,if_true,Option.some.injEq]
    ext y : 2
    · by_cases hy : y = block <;> simp [place,setBlock,setInst,hy,hblock]
    · by_cases hy : y = inst <;> simp [place,setBlock,setInst,hy]
    · rfl
    · rfl
  | some t =>
    obtain ⟨hne,hnode⟩ := hfirst t hf
    obtain ⟨old,hold⟩ := Option.isSome_iff_exists.mp hnode
    obtain ⟨last,hlast⟩ : ∃ last, node.lastInst = some last := by
      cases hlast : node.lastInst with
      | none => rw [hends.mpr hlast] at hf; cases hf
      | some last => exact ⟨last,rfl⟩
    simp only [insertInstAtStart,entryInst_free hfree,setInst,hblock,updateInst,updateBlock,setBlock,
      Option.isNone_iff_eq_none,Option.bind_eq_bind,Option.bind_some,Option.map_some,hlast,
      Function.update_self,Function.update_idem,reduceCtorEq,if_false,hf,ne_eq,hne,
      not_false_eq_true,Function.update_of_ne,hold,hne.symm,Option.some.injEq]
    ext y : 2
    · by_cases hy : y = block <;> simp [place,hy,hblock,hlast]
    · by_cases hy : y = inst
      · simp [place,hy]
      · by_cases ht : y = t
        · subst ht
          simp [place,hy,hold]
        · simp [place,hy,ht,Ne.symm ht]
    · rfl
    · rfl

theorem appendInst_eq (hfree : l.Free inst) (hblock : l.basicBlocks block = some node)
    (hends : node.firstInst = none ↔ node.lastInst = none)
    (hlast : ∀ t ∈ node.lastInst, t ≠ inst ∧ (l.instructions t).isSome) :
    l.appendInst inst block = some (l.place inst block node.lastInst none) := by
  cases hl : node.lastInst with
  | none =>
    have hfirst := hends.mpr hl
    simp only [appendInst,entryInst_free hfree,setInst_basicBlocks,hblock,hl,
      Option.bind_eq_bind,Option.bind_some,updateBlock,Option.map_some,setBlock_self,hfirst,
      Option.isNone_none,if_true,Option.some.injEq]
    ext y : 2
    · by_cases hy : y = block <;> simp [place,setBlock,setInst,hy,hblock]
    · by_cases hy : y = inst <;> simp [place,setBlock,setInst,hy]
    · rfl
    · rfl
  | some t =>
    obtain ⟨hne,hnode⟩ := hlast t hl
    obtain ⟨old,hold⟩ := Option.isSome_iff_exists.mp hnode
    obtain ⟨first,hfirst⟩ : ∃ first, node.firstInst = some first := by
      cases hfirst : node.firstInst with
      | none => rw [hends.mp hfirst] at hl; cases hl
      | some first => exact ⟨first,rfl⟩
    obtain ⟨q,hq⟩ := @exists_entryInst l inst block hfree (some t)
    simp only [appendInst,hblock,updateInst,setInst,updateBlock,setBlock,Option.isNone_iff_eq_none,
      Option.bind_eq_bind,Option.bind_some,hl,hq,ne_eq,hne,not_false_eq_true,
      Function.update_of_ne,hold,Option.map_some,hne.symm,Function.update_self,hfirst,
      Function.update_idem,reduceCtorEq,if_false,Option.some.injEq]
    ext y : 2
    · by_cases hy : y = block <;> simp [place,hy,hblock,hfirst]
    · by_cases hy : y = inst
      · simp [place,hy]
      · by_cases ht : y = t
        · subst ht
          simp [place,hy,hold]
        · simp [place,hy,ht,Ne.symm ht]
    · rfl
    · rfl

/-- In front of a member `before`, whose block begins with it exactly when nothing is before it. -/
theorem insertInstBefore_eq {before : InstructionId} {old : InstructionNode}
    (hnew : l.instructions inst = none) (hbefore : l.instructions before = some old)
    (hblock : l.basicBlocks block = some node)
    (hfirst : node.firstInst = some before ↔ old.prev = none)
    (hprev : ∀ t ∈ old.prev, t ≠ before ∧ (l.instructions t).isSome) :
    l.insertInstBefore before inst block = some (l.place inst block old.prev (some before)) := by
  have hne : before ≠ inst := fun heq => by rw [heq,hnew] at hbefore; cases hbefore
  have hentry : l.entryInst inst ⟨some block,old.prev,some before⟩ block =
      l.setInst inst ⟨some block,old.prev,some before⟩ := entryInst_new hnew rfl
  cases hp : old.prev with
  | none =>
    have hhead := hfirst.mpr hp
    rw [hp] at hentry
    simp only [insertInstBefore,hbefore,updateInst,setInst,updateBlock,setBlock,
      Option.bind_eq_bind,Option.bind_some,hp,hentry,ne_eq,hne,not_false_eq_true,
      Function.update_of_ne,Option.map_some,hblock,hhead,if_true,Option.some.injEq]
    ext y : 2
    · by_cases hy : y = block <;> simp [place,hy,hblock]
    · by_cases hy : y = inst
      · simp [place,hy,hne.symm]
      · by_cases hb : y = before
        · subst hb
          simp [place,hy,hbefore]
        · simp [place,hy,hb,Ne.symm hb]
    · rfl
    · rfl
  | some t =>
    obtain ⟨hnet,hnode⟩ := hprev t hp
    obtain ⟨oldt,holdt⟩ := Option.isSome_iff_exists.mp hnode
    have hneti : t ≠ inst := fun heq => by rw [heq,hnew] at holdt; cases holdt
    have hhead : node.firstInst ≠ some before := fun h => by rw [hfirst.mp h] at hp; cases hp
    rw [hp] at hentry
    simp only [insertInstBefore,hbefore,updateInst,setInst,Option.bind_eq_bind,Option.bind_some,hp,
      hentry,ne_eq,hne,not_false_eq_true,Function.update_of_ne,Option.map_some,hblock,hhead,
      if_false,hneti,holdt,hnet.symm,Option.some.injEq]
    ext y : 2
    · by_cases hy : y = block <;> simp [place,hy,hblock]
    · by_cases hy : y = inst
      · simp [place,hy,hne.symm,hneti.symm]
      · by_cases hb : y = before
        · subst hb
          simp [place,hy,hbefore,hnet]
        · by_cases ht : y = t
          · subst ht
            simp [place,hy,hb,Ne.symm hb,holdt]
          · simp [place,hy,hb,Ne.symm hb,ht,Ne.symm ht]
    · rfl
    · rfl

/-- Behind a member that is not the last one. -/
theorem insertInstAfter_eq {after : InstructionId} {old : InstructionNode} {t : InstructionId}
    (hnew : l.instructions inst = none) (hafter : l.instructions after = some old)
    (hnext : old.next = some t) (hne : t ≠ after) (hnode : (l.instructions t).isSome) :
    l.insertInstAfter after inst block = some (l.place inst block (some after) (some t)) := by
  obtain ⟨oldt,holdt⟩ := Option.isSome_iff_exists.mp hnode
  have hneai : after ≠ inst := fun heq => by rw [heq,hnew] at hafter; cases hafter
  have hneti : t ≠ inst := fun heq => by rw [heq,hnew] at holdt; cases holdt
  have hentry : l.entryInst inst ⟨some block,some after,some t⟩ block =
      l.setInst inst ⟨some block,some after,some t⟩ := entryInst_new hnew rfl
  simp only [insertInstAfter,hafter,updateInst,setInst,Option.bind_eq_bind,Option.bind_some,hnext,
    hentry,ne_eq,hneai,not_false_eq_true,Function.update_of_ne,Option.map_some,hneti,holdt,
    hne.symm,Option.some.injEq]
  ext y : 2
  · simp [place]
  · by_cases hy : y = inst
    · simp [place,hy,hneai.symm,hneti.symm]
    · by_cases ha : y = after
      · subst ha
        simp [place,hy,hafter,hne]
      · by_cases ht : y = t
        · subst ht
          simp [place,hy,ha,Ne.symm ha,holdt]
        · simp [place,hy,ha,Ne.symm ha,ht,Ne.symm ht]
  · rfl
  · rfl

/-- The link behind `p`, or the first instruction of the block, leads to `n`. -/
def linkNext (l : Layout) (block : BasicBlockId) (p n : Option InstructionId) : Layout :=
  { l with
    instructions := fun y => (l.instructions y).map fun node =>
      { node with next := if p = some y then n else node.next }
    basicBlocks := fun b => (l.basicBlocks b).map fun node =>
      { node with firstInst := if b = block ∧ p = none then n else node.firstInst } }

/-- The link before `n`, or the last instruction of the block, leads to `p`. -/
def linkPrev (l : Layout) (block : BasicBlockId) (p n : Option InstructionId) : Layout :=
  { l with
    instructions := fun y => (l.instructions y).map fun node =>
      { node with prev := if n = some y then p else node.prev }
    basicBlocks := fun b => (l.basicBlocks b).map fun node =>
      { node with lastInst := if b = block ∧ n = none then p else node.lastInst } }

theorem linkNext_eq {p : Option InstructionId} (n : Option InstructionId)
    (hblock : (l.basicBlocks block).isSome) (hp : ∀ t ∈ p, (l.instructions t).isSome) :
    l.setNext block p n = some (l.linkNext block p n) := by
  cases p with
  | none =>
    obtain ⟨node,hnode⟩ := Option.isSome_iff_exists.mp hblock
    simp only [setNext,updateBlock_eq _ hnode,Option.some.injEq]
    ext y : 2
    · by_cases hy : y = block <;> simp [linkNext,setBlock,hy,hnode]
    · simp [linkNext,setBlock]
    · rfl
    · rfl
  | some t =>
    obtain ⟨node,hnode⟩ := Option.isSome_iff_exists.mp (hp t rfl)
    simp only [setNext,updateInst_eq _ hnode,Option.some.injEq]
    ext y : 2
    · simp [linkNext,setInst]
    · by_cases hy : y = t
      · simp [linkNext,setInst,hy,hnode]
      · simp [linkNext,setInst,hy,Ne.symm hy]
    · rfl
    · rfl

theorem linkPrev_eq (p : Option InstructionId) {n : Option InstructionId}
    (hblock : (l.basicBlocks block).isSome) (hn : ∀ t ∈ n, (l.instructions t).isSome) :
    l.setPrev block p n = some (l.linkPrev block p n) := by
  cases n with
  | none =>
    obtain ⟨node,hnode⟩ := Option.isSome_iff_exists.mp hblock
    simp only [setPrev,updateBlock_eq _ hnode,Option.some.injEq]
    ext y : 2
    · by_cases hy : y = block <;> simp [linkPrev,setBlock,hy,hnode]
    · simp [linkPrev,setBlock]
    · rfl
    · rfl
  | some t =>
    obtain ⟨node,hnode⟩ := Option.isSome_iff_exists.mp (hn t rfl)
    simp only [setPrev,updateInst_eq _ hnode,Option.some.injEq]
    ext y : 2
    · simp [linkPrev,setInst]
    · by_cases hy : y = t
      · simp [linkPrev,setInst,hy,hnode]
      · simp [linkPrev,setInst,hy,Ne.symm hy]
    · rfl
    · rfl

/-- The layout without `inst`, which was in the block between `p` and `n`. -/
def unlink (l : Layout) (inst : InstructionId) (block : BasicBlockId)
    (p n : Option InstructionId) : Layout :=
  ((l.setInst inst ⟨none,none,none⟩).linkNext block p n).linkPrev block p n

theorem removeInst_of_detached {old : InstructionNode} (hinst : l.instructions inst = some old)
    (h : old.block = none) : l.removeInst inst = some l := by
  simp only [removeInst,hinst,h,Option.bind_eq_bind,Option.bind_some]

theorem removeInst_eq {p n : Option InstructionId}
    (hinst : l.instructions inst = some ⟨some block,p,n⟩) (hblock : (l.basicBlocks block).isSome)
    (hp : ∀ t ∈ p, (l.instructions t).isSome) (hn : ∀ t ∈ n, (l.instructions t).isSome) :
    l.removeInst inst = some (l.unlink inst block p n) := by
  have hkept : ∀ t, (l.instructions t).isSome →
      ((l.setInst inst ⟨none,none,none⟩).instructions t).isSome := by
    intro t ht
    by_cases heq : t = inst
    · simp [setInst,heq]
    · simpa [setInst,heq] using ht
  have hnext : (l.setInst inst ⟨none,none,none⟩).setNext block p n =
      some ((l.setInst inst ⟨none,none,none⟩).linkNext block p n) :=
    linkNext_eq n hblock fun t ht => hkept t (hp t ht)
  have hprev : ((l.setInst inst ⟨none,none,none⟩).linkNext block p n).setPrev block p n =
      some (l.unlink inst block p n) := by
    refine linkPrev_eq p ?_ ?_
    · simpa [linkNext] using hblock
    · intro t ht
      simpa [linkNext] using hkept t (hn t ht)
  simp only [removeInst,hinst,Option.bind_eq_bind,Option.bind_some,hnext,hprev,Option.getD_some]

/-- The layout with a further block behind the last one. -/
def placeBlock (l : Layout) (block : BasicBlockId) : Layout :=
  { l with
    basicBlocks := fun b => if b = block then some ⟨l.lastBlock,none,none,none⟩ else
      (l.basicBlocks b).map fun node => { node with
        next := if l.lastBlock = some b then some block else node.next }
    firstBlock := if l.firstBlock = none then some block else l.firstBlock
    lastBlock := some block }

theorem appendBlock_eq (hnew : l.basicBlocks block = none)
    (hlast : ∀ b ∈ l.lastBlock, (l.basicBlocks b).isSome) :
    l.appendBlock block = some (l.placeBlock block) := by
  cases hl : l.lastBlock with
  | none =>
    simp only [appendBlock,setBlock,hnew,hl,Option.getD_none,Option.isNone_iff_eq_none,
      Option.bind_eq_bind,Option.bind_some,Option.some.injEq]
    by_cases hf : l.firstBlock = none
    · rw [if_pos hf]
      ext y : 2
      · by_cases hy : y = block <;> simp [placeBlock,hy,hl]
      · rfl
      · simp [placeBlock,hf]
      · rfl
    · rw [if_neg hf]
      ext y : 2
      · by_cases hy : y = block <;> simp [placeBlock,hy,hl]
      · rfl
      · simp [placeBlock,hf]
      · rfl
  | some b =>
    obtain ⟨old,hold⟩ := Option.isSome_iff_exists.mp (hlast b hl)
    have hne : b ≠ block := fun heq => by rw [heq,hnew] at hold; cases hold
    simp only [appendBlock,setBlock,hnew,hl,Option.getD_none,updateBlock,ne_eq,hne,
      not_false_eq_true,Function.update_of_ne,hold,Option.map_some,Option.isNone_iff_eq_none,
      Option.bind_eq_bind,Option.bind_some,hne.symm,Function.update_self,Option.some.injEq]
    have hblocks : ∀ y, Function.update (Function.update (Function.update l.basicBlocks block
        (some ⟨some b,none,none,none⟩)) b (some { old with next := some block })) block
        (some ⟨some b,none,none,none⟩) y = (l.placeBlock block).basicBlocks y := by
      intro y
      by_cases hy : y = block
      · simp [placeBlock,hy,hl]
      · by_cases hb : y = b
        · simp [placeBlock,hl,hb,hne,hold]
        · simp [placeBlock,hl,hy,hb,Ne.symm hb]
    by_cases hf : l.firstBlock = none
    · rw [if_pos hf]
      ext y : 2
      · exact hblocks y
      · rfl
      · simp [placeBlock,hf]
      · rfl
    · rw [if_neg hf]
      ext y : 2
      · exact hblocks y
      · rfl
      · simp [placeBlock,hf]
      · rfl

section Projections

variable {p n : Option InstructionId}

theorem blockOf_place (y : InstructionId) :
    (l.place inst block p n).blockOf y = if y = inst then some block else l.blockOf y := by
  by_cases hy : y = inst
  · simp [place,blockOf,hy]
  · cases h : l.instructions y <;> simp [place,blockOf,hy,h]

theorem prevInstOf_place (hn : ∀ t ∈ n, (l.instructions t).isSome) (y : InstructionId) :
    (l.place inst block p n).prevInstOf y =
      if y = inst then p else if n = some y then some inst else l.prevInstOf y := by
  by_cases hy : y = inst
  · simp [place,prevInstOf,hy]
  · cases h : l.instructions y with
    | none =>
      have hne : n ≠ some y := fun heq => by simpa [h] using hn y heq
      simp [place,prevInstOf,hy,h,hne]
    | some node => by_cases heq : n = some y <;> simp [place,prevInstOf,hy,h,heq]

theorem nextInstOf_place (hp : ∀ t ∈ p, (l.instructions t).isSome) (y : InstructionId) :
    (l.place inst block p n).nextInstOf y =
      if y = inst then n else if p = some y then some inst else l.nextInstOf y := by
  by_cases hy : y = inst
  · simp [place,nextInstOf,hy]
  · cases h : l.instructions y with
    | none =>
      have hne : p ≠ some y := fun heq => by simpa [h] using hp y heq
      simp [place,nextInstOf,hy,h,hne]
    | some node => by_cases heq : p = some y <;> simp [place,nextInstOf,hy,h,heq]

theorem blockLinks_place : (l.place inst block p n).prevBlockOf = l.prevBlockOf ∧
    (l.place inst block p n).nextBlockOf = l.nextBlockOf := by
  constructor
  · funext b
    by_cases hb : b = block
    · subst hb
      cases h : l.basicBlocks b <;> simp [place,prevBlockOf,h]
    · simp [place,prevBlockOf,hb]
  · funext b
    by_cases hb : b = block
    · subst hb
      cases h : l.basicBlocks b <;> simp [place,nextBlockOf,h]
    · simp [place,nextBlockOf,hb]

theorem firstInstOf_place (hblock : (l.basicBlocks block).isSome) (b : BasicBlockId) :
    (l.place inst block p n).firstInstOf b =
      if b = block ∧ p = none then some inst else l.firstInstOf b := by
  obtain ⟨node,hnode⟩ := Option.isSome_iff_exists.mp hblock
  by_cases hb : b = block
  · by_cases hp : p = none <;> simp [place,firstInstOf,hb,hnode,hp]
  · simp [place,firstInstOf,hb]

theorem lastInstOf_place (hblock : (l.basicBlocks block).isSome) (b : BasicBlockId) :
    (l.place inst block p n).lastInstOf b =
      if b = block ∧ n = none then some inst else l.lastInstOf b := by
  obtain ⟨node,hnode⟩ := Option.isSome_iff_exists.mp hblock
  by_cases hb : b = block
  · by_cases hn : n = none <;> simp [place,lastInstOf,hb,hnode,hn]
  · simp [place,lastInstOf,hb]

theorem blockOf_unlink (y : InstructionId) :
    (l.unlink inst block p n).blockOf y = if y = inst then none else l.blockOf y := by
  by_cases hy : y = inst
  · simp [unlink,linkPrev,linkNext,setInst,blockOf,hy]
  · cases h : l.instructions y <;> simp [unlink,linkPrev,linkNext,setInst,blockOf,hy,h]

theorem prevInstOf_unlink (hn : ∀ t ∈ n, t ≠ inst ∧ (l.instructions t).isSome)
    (y : InstructionId) :
    (l.unlink inst block p n).prevInstOf y =
      if y = inst then none else if n = some y then p else l.prevInstOf y := by
  by_cases hy : y = inst
  · have hne : n ≠ some inst := fun heq => (hn inst heq).1 rfl
    simp [unlink,linkPrev,linkNext,setInst,prevInstOf,hy,hne]
  · cases h : l.instructions y with
    | none =>
      have hne : n ≠ some y := fun heq => by simpa [h] using (hn y heq).2
      simp [unlink,linkPrev,linkNext,setInst,prevInstOf,hy,h,hne]
    | some node =>
      by_cases heq : n = some y <;>
        simp [unlink,linkPrev,linkNext,setInst,prevInstOf,hy,h,heq]

theorem nextInstOf_unlink (hp : ∀ t ∈ p, t ≠ inst ∧ (l.instructions t).isSome)
    (y : InstructionId) :
    (l.unlink inst block p n).nextInstOf y =
      if y = inst then none else if p = some y then n else l.nextInstOf y := by
  by_cases hy : y = inst
  · have hne : p ≠ some inst := fun heq => (hp inst heq).1 rfl
    simp [unlink,linkPrev,linkNext,setInst,nextInstOf,hy,hne]
  · cases h : l.instructions y with
    | none =>
      have hne : p ≠ some y := fun heq => by simpa [h] using (hp y heq).2
      simp [unlink,linkPrev,linkNext,setInst,nextInstOf,hy,h,hne]
    | some node =>
      by_cases heq : p = some y <;>
        simp [unlink,linkPrev,linkNext,setInst,nextInstOf,hy,h,heq]

theorem blockLinks_unlink : (l.unlink inst block p n).prevBlockOf = l.prevBlockOf ∧
    (l.unlink inst block p n).nextBlockOf = l.nextBlockOf := by
  constructor
  · funext b
    cases h : l.basicBlocks b <;> simp [unlink,linkPrev,linkNext,setInst,prevBlockOf,h]
  · funext b
    cases h : l.basicBlocks b <;> simp [unlink,linkPrev,linkNext,setInst,nextBlockOf,h]

theorem firstInstOf_unlink (hblock : (l.basicBlocks block).isSome) (b : BasicBlockId) :
    (l.unlink inst block p n).firstInstOf b =
      if b = block ∧ p = none then n else l.firstInstOf b := by
  obtain ⟨node,hnode⟩ := Option.isSome_iff_exists.mp hblock
  by_cases hb : b = block
  · by_cases hp : p = none <;>
      simp [unlink,linkPrev,linkNext,setInst,firstInstOf,hb,hnode,hp]
  · cases h : l.basicBlocks b <;> simp [unlink,linkPrev,linkNext,setInst,firstInstOf,hb,h]

theorem lastInstOf_unlink (hblock : (l.basicBlocks block).isSome) (b : BasicBlockId) :
    (l.unlink inst block p n).lastInstOf b =
      if b = block ∧ n = none then p else l.lastInstOf b := by
  obtain ⟨node,hnode⟩ := Option.isSome_iff_exists.mp hblock
  by_cases hb : b = block
  · by_cases hn : n = none <;>
      simp [unlink,linkPrev,linkNext,setInst,lastInstOf,hb,hnode,hn]
  · cases h : l.basicBlocks b <;> simp [unlink,linkPrev,linkNext,setInst,lastInstOf,hb,h]

end Projections

end Layout

namespace Represents

variable {l : Layout} {m : Lists} {inst : InstructionId} {block : BasicBlockId}
  {xs ys : List InstructionId}

theorem isSome_of_mem (h : Represents l m) {i : InstructionId} {b : BasicBlockId}
    (hi : i ∈ m.insts b) : (l.instructions i).isSome := by
  have hb := (h.block i b).mpr hi
  cases hnode : l.instructions i with
  | none => simp [Layout.blockOf,hnode] at hb
  | some node => rfl

theorem block_unique (h : Represents l m) {i : InstructionId} {b c : BasicBlockId}
    (hb : i ∈ m.insts b) (hc : i ∈ m.insts c) : b = c :=
  Option.some.inj (((h.block i b).mpr hb).symm.trans ((h.block i c).mpr hc))

theorem mem_blocks (h : Represents l m) {i : InstructionId} {b : BasicBlockId}
    (hi : i ∈ m.insts b) : b ∈ m.blocks := by
  rw [← h.blockNode]
  cases hnode : l.basicBlocks b with
  | some node => rfl
  | none =>
    have hfirst := h.firstInst b
    rw [Layout.firstInstOf,hnode,Option.bind_none] at hfirst
    rw [List.head?_eq_none_iff.mp hfirst.symm] at hi
    cases hi

/-- An instruction in no block has no node or an empty one. -/
theorem free (h : Represents l m) (hinst : ∀ b, inst ∉ m.insts b) : l.Free inst := by
  intro node hnode
  have hblock : l.blockOf inst = none := by
    cases hb : l.blockOf inst with
    | none => rfl
    | some b => exact absurd ((h.block inst b).mp hb) (hinst b)
  obtain ⟨hprev,hnext⟩ := h.detached inst hblock
  simp only [Layout.blockOf,Layout.prevInstOf,Layout.nextInstOf,hnode,Option.bind_some]
    at hblock hprev hnext
  cases node
  simp only [InstructionNode.mk.injEq]
  exact ⟨hblock,hprev,hnext⟩

/-- The node of a member of a block. -/
theorem node_eq (h : Represents l m) (hsplit : m.insts block = xs ++ inst::ys) :
    l.instructions inst = some ⟨some block,xs.getLast?,ys.head?⟩ := by
  have hmem : inst ∈ m.insts block := by simp [hsplit]
  obtain ⟨node,hnode⟩ := Option.isSome_iff_exists.mp (h.isSome_of_mem hmem)
  have hb := (h.block inst block).mpr hmem
  obtain ⟨hprev,hnext⟩ := h.instLinks block xs inst ys hsplit
  simp only [Layout.blockOf,Layout.prevInstOf,Layout.nextInstOf,hnode,Option.bind_some]
    at hb hprev hnext
  rw [hnode,← hb,← hprev,← hnext]

/-- The node of a block. -/
theorem blockNode_eq (h : Represents l m) (hblock : block ∈ m.blocks) :
    ∃ node, l.basicBlocks block = some node ∧ node.firstInst = (m.insts block).head? ∧
      node.lastInst = (m.insts block).getLast? := by
  obtain ⟨node,hnode⟩ := Option.isSome_iff_exists.mp ((h.blockNode block).mpr hblock)
  have hfirst := h.firstInst block
  have hlast := h.lastInst block
  simp only [Layout.firstInstOf,Layout.lastInstOf,hnode,Option.bind_some] at hfirst hlast
  exact ⟨node,hnode,hfirst,hlast⟩

theorem place (h : Represents l m) (hblock : block ∈ m.blocks) (hinst : ∀ b, inst ∉ m.insts b)
    (hsplit : m.insts block = xs ++ ys) :
    Represents (l.place inst block xs.getLast? ys.head?) (m.put inst block (xs ++ inst::ys)) := by
  have hnode := (h.blockNode block).mpr hblock
  have hxs : ∀ t ∈ xs.getLast?, t ∈ m.insts block := fun t ht => by
    rw [hsplit]
    exact List.mem_append_left ys (List.mem_of_getLast? ht)
  have hys : ∀ t ∈ ys.head?, t ∈ m.insts block := fun t ht => by
    rw [hsplit]
    exact List.mem_append_right xs (List.mem_of_mem_head? ht)
  have hprev := @Layout.prevInstOf_place l inst block xs.getLast? ys.head?
    fun t ht => h.isSome_of_mem (hys t ht)
  have hnext := @Layout.nextInstOf_place l inst block xs.getLast? ys.head?
    fun t ht => h.isSome_of_mem (hxs t ht)
  have hnodup := hsplit ▸ h.insts_nodup block
  have hnotin : inst ∉ xs ++ ys := hsplit ▸ hinst block
  have hput : ∀ b ≠ block, (m.put inst block (xs ++ inst::ys)).insts b = m.insts b :=
    fun b hb => Function.update_of_ne hb _ _
  have hself : (m.put inst block (xs ++ inst::ys)).insts block = xs ++ inst::ys :=
    Function.update_self _ _ _
  refine ⟨h.blocks_nodup,h.firstBlock,h.lastBlock,?_,?_,?_,?_,?_,?_,?_,?_,?_⟩
  · intro b
    rw [show (m.put inst block (xs ++ inst::ys)).blocks = m.blocks from rfl,← h.blockNode]
    by_cases hb : b = block <;> simp [Layout.place,hb]
  · rw [Layout.blockLinks_place.1,Layout.blockLinks_place.2]
    exact h.blockLinks
  · intro b
    by_cases hb : b = block
    · rw [hb,hself]
      exact List.nodup_middle.mpr (List.nodup_cons.mpr ⟨hnotin,hnodup⟩)
    · rw [hput b hb]
      exact h.insts_nodup b
  · intro b
    rw [Layout.firstInstOf_place hnode]
    by_cases hb : b = block
    · rw [hb,hself,h.firstInst,hsplit]
      cases xs <;> simp
    · rw [hput b hb,if_neg fun hc => hb hc.1]
      exact h.firstInst b
  · intro b
    rw [Layout.lastInstOf_place hnode]
    by_cases hb : b = block
    · rw [hb,hself,h.lastInst,hsplit]
      cases ys with
      | nil => simp
      | cons y ys => simp [List.getLast?_cons_cons]
    · rw [hput b hb,if_neg fun hc => hb hc.1]
      exact h.lastInst b
  · intro b
    by_cases hb : b = block
    · rw [hb,hself]
      have hlinks : Linked l.prevInstOf l.nextInstOf (xs ++ ys) := hsplit ▸ h.instLinks block
      have hne : ∀ y ∈ xs ++ ys, y ≠ inst := fun y hy heq => hnotin (heq ▸ hy)
      refine hlinks.insert hnodup ⟨?_,?_⟩ ?_ ?_
      · rw [hprev,if_pos rfl]
      · rw [hnext,if_pos rfl]
      · intro y hy
        rw [hprev,if_neg (hne y hy)]
      · intro y hy
        rw [hnext,if_neg (hne y hy)]
    · rw [hput b hb]
      refine (h.instLinks b).congr ?_
      intro y hy
      have hne : y ≠ inst := fun heq => hinst b (heq ▸ hy)
      have hfirst : ys.head? ≠ some y := fun heq => hb (h.block_unique hy (hys y heq))
      have hlast : xs.getLast? ≠ some y := fun heq => hb (h.block_unique hy (hxs y heq))
      rw [hprev,hnext,if_neg hne,if_neg hne,if_neg hfirst,if_neg hlast]
      exact ⟨rfl,rfl⟩
  · intro i b
    rw [Layout.blockOf_place]
    by_cases hi : i = inst
    · by_cases hb : b = block
      · simp [hi,hb,hself]
      · rw [if_pos hi,hput b hb,hi]
        simp only [Option.some.injEq,hinst b,iff_false]
        exact fun heq => hb heq.symm
    · rw [if_neg hi,h.block]
      by_cases hb : b = block
      · rw [hb,hself,hsplit]
        simp [hi]
      · rw [hput b hb]
  · intro i
    by_cases hi : i = inst
    · simp [Layout.place,Lists.put,hi]
    · have hseen := h.instNode i
      simpa [Layout.place,Lists.put,hi] using hseen
  · intro i hi
    rw [Layout.blockOf_place] at hi
    by_cases heq : i = inst
    · rw [if_pos heq] at hi
      cases hi
    · rw [if_neg heq] at hi
      have hnone : ∀ b, i ∉ m.insts b := fun b hb => by
        rw [(h.block i b).mpr hb] at hi
        cases hi
      have hfirst : ys.head? ≠ some i := fun hc => hnone block (hys i hc)
      have hlast : xs.getLast? ≠ some i := fun hc => hnone block (hxs i hc)
      rw [hprev,hnext,if_neg heq,if_neg heq,if_neg hfirst,if_neg hlast]
      exact h.detached i hi

theorem unlink (h : Represents l m) (hsplit : m.insts block = xs ++ inst::ys) :
    Represents (l.unlink inst block xs.getLast? ys.head?)
      { m with insts := fun b => (m.insts b).erase inst } := by
  have hmem : inst ∈ m.insts block := by simp [hsplit]
  have hnode := (h.blockNode block).mpr (h.mem_blocks hmem)
  have hnodup := hsplit ▸ h.insts_nodup block
  have hnotin := (List.nodup_cons.mp (List.nodup_middle.mp hnodup)).1
  have hxs : ∀ t ∈ xs.getLast?, t ≠ inst ∧ t ∈ m.insts block := fun t ht => by
    have hin : t ∈ xs := List.mem_of_getLast? ht
    exact ⟨fun heq => hnotin (heq ▸ List.mem_append_left ys hin),by simp [hsplit,hin]⟩
  have hys : ∀ t ∈ ys.head?, t ≠ inst ∧ t ∈ m.insts block := fun t ht => by
    have hin : t ∈ ys := List.mem_of_mem_head? ht
    exact ⟨fun heq => hnotin (heq ▸ List.mem_append_right xs hin),by simp [hsplit,hin]⟩
  have hprev := @Layout.prevInstOf_unlink l inst block xs.getLast? ys.head?
    fun t ht => ⟨(hys t ht).1,h.isSome_of_mem (hys t ht).2⟩
  have hnext := @Layout.nextInstOf_unlink l inst block xs.getLast? ys.head?
    fun t ht => ⟨(hxs t ht).1,h.isSome_of_mem (hxs t ht).2⟩
  have herase : (m.insts block).erase inst = xs ++ ys := by
    rw [hsplit,List.erase_append_right _ fun hin => hnotin (List.mem_append_left ys hin),
      List.erase_cons_head]
  have hother : ∀ b ≠ block, (m.insts b).erase inst = m.insts b := fun b hb =>
    List.erase_of_not_mem fun hin => hb (h.block_unique hin hmem)
  refine ⟨h.blocks_nodup,h.firstBlock,h.lastBlock,?_,?_,?_,?_,?_,?_,?_,?_,?_⟩
  · intro b
    rw [show ({ m with insts := fun b => (m.insts b).erase inst } : Lists).blocks = m.blocks
      from rfl,← h.blockNode]
    simp [Layout.unlink,Layout.linkPrev,Layout.linkNext,Layout.setInst]
  · rw [Layout.blockLinks_unlink.1,Layout.blockLinks_unlink.2]
    exact h.blockLinks
  · intro b
    exact (h.insts_nodup b).erase inst
  · intro b
    rw [Layout.firstInstOf_unlink hnode]
    by_cases hb : b = block
    · simp only [hb,herase,true_and]
      rw [h.firstInst,hsplit]
      cases xs <;> simp
    · simp only [hother b hb]
      rw [if_neg fun hc => hb hc.1]
      exact h.firstInst b
  · intro b
    rw [Layout.lastInstOf_unlink hnode]
    by_cases hb : b = block
    · simp only [hb,herase,true_and]
      rw [h.lastInst,hsplit]
      cases ys with
      | nil => simp
      | cons y ys => simp [List.getLast?_cons_cons]
    · simp only [hother b hb]
      rw [if_neg fun hc => hb hc.1]
      exact h.lastInst b
  · intro b
    by_cases hb : b = block
    · simp only [hb,herase]
      have hlinks : Linked l.prevInstOf l.nextInstOf (xs ++ inst::ys) :=
        hsplit ▸ h.instLinks block
      have hne : ∀ y ∈ xs ++ ys, y ≠ inst := fun y hy heq => hnotin (heq ▸ hy)
      refine hlinks.remove hnodup ?_ ?_
      · intro y hy
        rw [hprev,if_neg (hne y hy)]
      · intro y hy
        rw [hnext,if_neg (hne y hy)]
    · simp only [hother b hb]
      refine (h.instLinks b).congr ?_
      intro y hy
      have hne : y ≠ inst := fun heq => hb (h.block_unique (heq ▸ hy) hmem)
      have hfirst : ys.head? ≠ some y := fun heq => hb (h.block_unique hy (hys y heq).2)
      have hlast : xs.getLast? ≠ some y := fun heq => hb (h.block_unique hy (hxs y heq).2)
      rw [hprev,hnext,if_neg hne,if_neg hne,if_neg hfirst,if_neg hlast]
      exact ⟨rfl,rfl⟩
  · intro i b
    rw [Layout.blockOf_unlink]
    simp only [(h.insts_nodup b).mem_erase_iff]
    by_cases hi : i = inst
    · simp [hi]
    · rw [if_neg hi,h.block]
      simp [hi]
  · intro i
    have hseen := h.instNode i
    by_cases hi : i = inst
    · have hin := hseen.mp (hi ▸ h.isSome_of_mem hmem)
      simpa [Layout.unlink,Layout.linkPrev,Layout.linkNext,Layout.setInst,hi] using hi ▸ hin
    · simpa [Layout.unlink,Layout.linkPrev,Layout.linkNext,Layout.setInst,hi] using hseen
  · intro i hi
    by_cases heq : i = inst
    · rw [hprev,hnext,if_pos heq,if_pos heq]
      exact ⟨rfl,rfl⟩
    · rw [Layout.blockOf_unlink,if_neg heq] at hi
      have hnone : ∀ b, i ∉ m.insts b := fun b hb => by
        rw [(h.block i b).mpr hb] at hi
        cases hi
      have hfirst : ys.head? ≠ some i := fun hc => hnone block (hys i hc).2
      have hlast : xs.getLast? ≠ some i := fun hc => hnone block (hxs i hc).2
      rw [hprev,hnext,if_neg heq,if_neg heq,if_neg hfirst,if_neg hlast]
      exact h.detached i hi

theorem placeBlock (h : Represents l m) (hnew : block ∉ m.blocks) :
    Represents (l.placeBlock block) { m with blocks := m.blocks ++ [block] } := by
  have hnone : l.basicBlocks block = none := by
    cases hb : l.basicBlocks block with
    | none => rfl
    | some node => exact absurd ((h.blockNode block).mp (by simp [hb])) hnew
  have hlast : ∀ b, l.lastBlock = some b → b ∈ m.blocks := fun b hb =>
    List.mem_of_getLast? (h.lastBlock ▸ hb)
  have hprev : ∀ b, (l.placeBlock block).prevBlockOf b =
      if b = block then l.lastBlock else l.prevBlockOf b := by
    intro b
    by_cases hb : b = block
    · simp [Layout.placeBlock,Layout.prevBlockOf,hb]
    · cases hn : l.basicBlocks b <;> simp [Layout.placeBlock,Layout.prevBlockOf,hb,hn]
  have hnext : ∀ b ∈ m.blocks, (l.placeBlock block).nextBlockOf b =
      if l.lastBlock = some b then some block else l.nextBlockOf b := by
    intro b hb
    obtain ⟨node,hnode⟩ := Option.isSome_iff_exists.mp ((h.blockNode b).mpr hb)
    have hne : b ≠ block := fun heq => hnew (heq ▸ hb)
    by_cases heq : l.lastBlock = some b <;>
      simp [Layout.placeBlock,Layout.nextBlockOf,hne,hnode,heq]
  have hinsts : ∀ b, (l.placeBlock block).firstInstOf b = l.firstInstOf b ∧
      (l.placeBlock block).lastInstOf b = l.lastInstOf b := by
    intro b
    by_cases hb : b = block
    · simp [Layout.placeBlock,Layout.firstInstOf,Layout.lastInstOf,hb,hnone]
    · cases hn : l.basicBlocks b <;>
        simp [Layout.placeBlock,Layout.firstInstOf,Layout.lastInstOf,hb,hn]
  refine ⟨?_,?_,?_,?_,?_,h.insts_nodup,?_,?_,h.instLinks,h.block,h.instNode,h.detached⟩
  · exact List.nodup_append.mpr ⟨h.blocks_nodup,List.nodup_singleton block,
      fun a ha b hb heq => hnew (List.mem_singleton.mp hb ▸ heq ▸ ha)⟩
  · rw [show (l.placeBlock block).firstBlock =
      if l.firstBlock = none then some block else l.firstBlock from rfl,h.firstBlock]
    cases m.blocks <;> simp
  · exact List.getLast?_concat.symm
  · intro b
    by_cases hb : b = block
    · simp [Layout.placeBlock,hb]
    · have hnode := h.blockNode b
      simpa [Layout.placeBlock,hb] using hnode
  · have hlinks : Linked l.prevBlockOf l.nextBlockOf (m.blocks ++ []) := by
      simpa using h.blockLinks
    have hne : ∀ b ∈ m.blocks, b ≠ block := fun b hb heq => hnew (heq ▸ hb)
    refine hlinks.insert (by simpa using h.blocks_nodup) ⟨?_,?_⟩ ?_ ?_
    · rw [hprev,if_pos rfl,h.lastBlock]
    · simp [Layout.placeBlock,Layout.nextBlockOf]
    · intro b hb
      rw [List.append_nil] at hb
      rw [hprev,if_neg (hne b hb)]
      rfl
    · intro b hb
      rw [List.append_nil] at hb
      rw [hnext b hb,h.lastBlock]
  · intro b
    rw [(hinsts b).1]
    exact h.firstInst b
  · intro b
    rw [(hinsts b).2]
    exact h.lastInst b

theorem not_mem_of_not_seen (h : Represents l m) (hseen : inst ∉ m.seen) (b : BasicBlockId) :
    inst ∉ m.insts b :=
  fun hmem => hseen ((h.instNode inst).mp (h.isSome_of_mem hmem))

theorem new_of_not_seen (h : Represents l m) (hseen : inst ∉ m.seen) :
    l.instructions inst = none := by
  rw [← Option.not_isSome_iff_eq_none,h.instNode]
  exact hseen

end Represents

theorem Lists.insertBefore_eq {before inst : InstructionId} {xs ys : List InstructionId}
    (h : before ∉ xs) :
    insertBefore before inst (xs ++ before::ys) = xs ++ inst::before::ys := by
  induction xs with
  | nil => simp [insertBefore]
  | cons x xs ih =>
    rw [List.mem_cons,not_or] at h
    simp [insertBefore,Ne.symm h.1,ih h.2]

theorem Lists.insertAfter_eq {after inst : InstructionId} {xs ys : List InstructionId}
    (h : after ∉ xs) : insertAfter after inst (xs ++ after::ys) = xs ++ after::inst::ys := by
  induction xs with
  | nil => simp [insertAfter]
  | cons x xs ih =>
    rw [List.mem_cons,not_or] at h
    simp [insertAfter,Ne.symm h.1,ih h.2]

/-- A member of a list without repetitions splits it, and is not in the first part. -/
theorem exists_split {i : InstructionId} {insts : List InstructionId} (hnodup : insts.Nodup)
    (hi : i ∈ insts) : ∃ xs ys, insts = xs ++ i::ys ∧ i ∉ xs := by
  obtain ⟨xs,ys,rfl⟩ := List.append_of_mem hi
  refine ⟨xs,ys,rfl,fun hx => ?_⟩
  exact (List.nodup_append.mp hnodup).2.2 i hx i (by simp) rfl

/-! ### Whole runs -/

section Steps

variable {l : Layout} {m : Lists} {inst : InstructionId} {block : BasicBlockId}

theorem appendBlock_step (h : Represents l m) (hnew : block ∉ m.blocks) :
    ∃ l', l.appendBlock block = some l' ∧
      Represents l' { m with blocks := m.blocks ++ [block] } := by
  refine ⟨_,Layout.appendBlock_eq ?_ ?_,h.placeBlock hnew⟩
  · rw [← Option.not_isSome_iff_eq_none,h.blockNode]
    exact hnew
  · intro b hb
    exact (h.blockNode b).mpr (List.mem_of_getLast? (h.lastBlock ▸ hb))

theorem appendInst_step (h : Represents l m) (hblock : block ∈ m.blocks)
    (hinst : ∀ b, inst ∉ m.insts b) :
    ∃ l', l.appendInst inst block = some l' ∧
      Represents l' (m.put inst block (m.insts block ++ [inst])) := by
  obtain ⟨node,hnode,hfirst,hlast⟩ := h.blockNode_eq hblock
  have hends : node.firstInst = none ↔ node.lastInst = none := by
    rw [hfirst,hlast,List.head?_eq_none_iff,List.getLast?_eq_none_iff]
  have hmem : ∀ t ∈ node.lastInst, t ∈ m.insts block := fun t ht =>
    List.mem_of_getLast? (hlast ▸ ht)
  refine ⟨_,Layout.appendInst_eq (h.free hinst) hnode hends ?_,?_⟩
  · intro t ht
    exact ⟨fun heq => hinst block (heq ▸ hmem t ht),h.isSome_of_mem (hmem t ht)⟩
  · rw [hlast]
    exact h.place hblock hinst (List.append_nil _).symm

theorem insertInstAtStart_step (h : Represents l m) (hblock : block ∈ m.blocks)
    (hinst : ∀ b, inst ∉ m.insts b) :
    ∃ l', l.insertInstAtStart inst block = some l' ∧
      Represents l' (m.put inst block (inst::m.insts block)) := by
  obtain ⟨node,hnode,hfirst,hlast⟩ := h.blockNode_eq hblock
  have hends : node.firstInst = none ↔ node.lastInst = none := by
    rw [hfirst,hlast,List.head?_eq_none_iff,List.getLast?_eq_none_iff]
  have hmem : ∀ t ∈ node.firstInst, t ∈ m.insts block := fun t ht =>
    List.mem_of_mem_head? (hfirst ▸ ht)
  refine ⟨_,Layout.insertInstAtStart_eq (h.free hinst) hnode hends ?_,?_⟩
  · intro t ht
    exact ⟨fun heq => hinst block (heq ▸ hmem t ht),h.isSome_of_mem (hmem t ht)⟩
  · rw [hfirst]
    exact h.place hblock hinst (List.nil_append _).symm

theorem insertInstBefore_step {before : InstructionId} (h : Represents l m)
    (hbefore : before ∈ m.insts block) (hseen : inst ∉ m.seen) :
    ∃ l', l.insertInstBefore before inst block = some l' ∧
      Represents l' (m.put inst block (Lists.insertBefore before inst (m.insts block))) := by
  obtain ⟨xs,ys,hsplit,hxs⟩ := exists_split (h.insts_nodup block) hbefore
  obtain ⟨node,hnode,hfirst,-⟩ := h.blockNode_eq (h.mem_blocks hbefore)
  have hnodup := hsplit ▸ h.insts_nodup block
  refine ⟨_,Layout.insertInstBefore_eq (h.new_of_not_seen hseen) (h.node_eq hsplit) hnode ?_ ?_,?_⟩
  · rw [hfirst,hsplit,head?_eq_iff hnodup,List.getLast?_eq_none_iff]
  · intro t ht
    have hin : t ∈ xs := List.mem_of_getLast? ht
    refine ⟨fun heq => hxs (heq ▸ hin),?_⟩
    exact h.isSome_of_mem (b := block) (by simp [hsplit,hin])
  · rw [hsplit,Lists.insertBefore_eq hxs]
    exact h.place (h.mem_blocks hbefore) (h.not_mem_of_not_seen hseen) hsplit

theorem insertInstAfter_step {after : InstructionId} (h : Represents l m)
    (hafter : after ∈ m.insts block) (hlast : (m.insts block).getLast? ≠ some after)
    (hseen : inst ∉ m.seen) :
    ∃ l', l.insertInstAfter after inst block = some l' ∧
      Represents l' (m.put inst block (Lists.insertAfter after inst (m.insts block))) := by
  obtain ⟨xs,ys,hsplit,hxs⟩ := exists_split (h.insts_nodup block) hafter
  have hnodup := hsplit ▸ h.insts_nodup block
  have hys : ys ≠ [] := fun hnil => hlast (by rw [hsplit]; exact (getLast?_eq_iff hnodup).mpr hnil)
  obtain ⟨t,ts,rfl⟩ := List.exists_cons_of_ne_nil hys
  have hne : t ≠ after := by
    have hnot := (List.nodup_cons.mp (List.nodup_append.mp hnodup).2.1).1
    exact fun heq => hnot (heq ▸ List.mem_cons_self)
  have hnode : (l.instructions t).isSome := h.isSome_of_mem (b := block) (by simp [hsplit])
  refine ⟨_,Layout.insertInstAfter_eq (h.new_of_not_seen hseen) (h.node_eq hsplit) rfl hne hnode,?_⟩
  have hplace := h.place (h.mem_blocks hafter) (h.not_mem_of_not_seen hseen)
    (show m.insts block = (xs ++ [after]) ++ t::ts by simp [hsplit])
  rw [List.getLast?_concat] at hplace
  rw [hsplit,Lists.insertAfter_eq hxs]
  simpa using hplace

theorem removeInst_step (h : Represents l m) (hseen : inst ∈ m.seen) :
    ∃ l', l.removeInst inst = some l' ∧
      Represents l' { m with insts := fun b => (m.insts b).erase inst } := by
  obtain ⟨node,hnode⟩ := Option.isSome_iff_exists.mp ((h.instNode inst).mpr hseen)
  cases hblock : node.block with
  | none =>
    refine ⟨l,Layout.removeInst_of_detached hnode hblock,?_⟩
    have herase : (fun b => (m.insts b).erase inst) = m.insts := by
      funext b
      refine List.erase_of_not_mem fun hmem => ?_
      have hb := (h.block inst b).mpr hmem
      simp [Layout.blockOf,hnode,hblock] at hb
    rw [herase]
    exact h
  | some block =>
    have hmem : inst ∈ m.insts block := (h.block inst block).mp (by simp [Layout.blockOf,hnode,hblock])
    obtain ⟨xs,ys,hsplit,-⟩ := exists_split (h.insts_nodup block) hmem
    refine ⟨_,Layout.removeInst_eq (h.node_eq hsplit) ?_ ?_ ?_,h.unlink hsplit⟩
    · exact (h.blockNode block).mpr (h.mem_blocks hmem)
    · intro t ht
      exact h.isSome_of_mem (b := block) (by simp [hsplit,List.mem_of_getLast? ht])
    · intro t ht
      exact h.isSome_of_mem (b := block) (by simp [hsplit,List.mem_of_mem_head? ht])

end Steps

/-- One operation of the passes: it does not panic, and does to the layout what it does to the
lists. -/
theorem Op.step {l : Layout} {m : Lists} (h : Represents l m) (op : Op) (hop : op.Performed m) :
    ∃ l', op.run l = some l' ∧ Represents l' (op.apply m) := by
  cases op with
  | appendBlock block => exact appendBlock_step h hop
  | appendInst inst block => exact appendInst_step h hop.1 hop.2
  | insertInstAtStart inst block => exact insertInstAtStart_step h hop.1 hop.2
  | insertInstBefore before inst block => exact insertInstBefore_step h hop.1 hop.2
  | insertInstAfter after inst block => exact insertInstAfter_step h hop.1 hop.2.1 hop.2.2
  | removeInst inst => exact removeInst_step h hop

theorem run_represents {ops : List Op} {l : Layout} {m : Lists} (h : Represents l m)
    (hops : PerformedAll ops m) :
    ∃ l', run ops l = some l' ∧ Represents l' (ops.foldl (fun m op => op.apply m) m) := by
  induction ops generalizing l m with
  | nil => exact ⟨l,rfl,h⟩
  | cons op ops ih =>
    obtain ⟨l₁,hrun,h₁⟩ := op.step h hops.1
    obtain ⟨l₂,hrest,h₂⟩ := ih h₁ hops.2
    exact ⟨l₂,by rw [run,hrun,Option.bind_some,hrest],h₂⟩

theorem represents_new : Represents Layout.new Lists.empty where
  blocks_nodup := List.nodup_nil
  firstBlock := rfl
  lastBlock := rfl
  blockNode b := by simp [Layout.new,Lists.empty]
  blockLinks := linked_nil
  insts_nodup _ := List.nodup_nil
  firstInst _ := rfl
  lastInst _ := rfl
  instLinks _ := linked_nil
  block i b := by simp [Layout.new,Lists.empty,Layout.blockOf]
  instNode i := by simp [Layout.new,Lists.empty]
  detached _ _ := ⟨rfl,rfl⟩

/-- Whatever the passes do to a layout from its creation on, it represents the blocks and the
instructions of each block that the same operations leave in lists. -/
theorem layout_represents (ops : List Op) (hops : PerformedAll ops Lists.empty) :
    ∃ l, run ops Layout.new = some l ∧
      Represents l (ops.foldl (fun m op => op.apply m) Lists.empty) :=
  run_represents represents_new hops

/-- Two blocks, with instructions put in at both ends and in the middle, and taken out. -/
theorem layout_represents_blocks :
    ∃ l, run [.appendBlock 0,.appendBlock 1,.appendInst 5 0,.insertInstAtStart 6 0,
        .insertInstAfter 6 7 0,.insertInstBefore 6 8 0,.removeInst 5,.removeInst 5,
        .appendInst 5 1] Layout.new = some l ∧
      Represents l ([Op.appendBlock 0,.appendBlock 1,.appendInst 5 0,.insertInstAtStart 6 0,
        .insertInstAfter 6 7 0,.insertInstBefore 6 8 0,.removeInst 5,.removeInst 5,
        .appendInst 5 1].foldl (fun m op => op.apply m) Lists.empty) :=
  layout_represents _ (by
    simp only [PerformedAll,Op.Performed,Op.apply,Lists.empty,Lists.put]
    refine ⟨by decide,by decide,by simp,⟨by decide,?_⟩,by decide,by decide,by decide,by decide,
      ⟨by decide,?_⟩,trivial⟩
    all_goals
      intro b
      by_cases hb : b = 0
      · subst hb
        decide
      · simp [Function.update,hb])

/-! ### The iterators -/

/-- `InstructionIter`: it stops at the last instruction of the block. -/
def instIter (l : Layout) (block : BasicBlockId) : ℕ → Option InstructionId → List InstructionId
  | _, none => []
  | 0, some _ => []
  | n+1, some cur =>
    cur::instIter l block n (if some cur = l.lastInstOf block then none else l.nextInstOf cur)

/-- The blocks, and the instructions of a block, are iterated in the order of the lists. -/
theorem Represents.iter {l : Layout} {m : Lists} (h : Represents l m) :
    (∀ n, m.blocks.length ≤ n → walk l.nextBlockOf n l.firstBlock = m.blocks) ∧
    ∀ block n, (m.insts block).length ≤ n →
      instIter l block n (l.firstInstOf block) = m.insts block := by
  refine ⟨fun n hn => ?_,fun block n hn => ?_⟩
  · rw [h.firstBlock]
    exact h.blockLinks.walk_eq hn
  · -- the last instruction has no next one, so the iterator does what the links say
    have hwalk : ∀ n cur, (∀ i ∈ cur, i ∈ m.insts block) →
        instIter l block n cur = walk l.nextInstOf n cur := by
      intro n
      induction n with
      | zero => intro cur _; cases cur <;> rfl
      | succ n ih =>
        intro cur hcur
        cases cur with
        | none => rfl
        | some i =>
          obtain ⟨xs,ys,hsplit,-⟩ := exists_split (h.insts_nodup block) (hcur i rfl)
          have hnext := (h.instLinks block xs i ys hsplit).2
          have hlast : some i = l.lastInstOf block ↔ ys = [] := by
            rw [h.lastInst,hsplit,eq_comm]
            exact getLast?_eq_iff (hsplit ▸ h.insts_nodup block)
          have hstep : (if some i = l.lastInstOf block then none else l.nextInstOf i) =
              l.nextInstOf i := by
            by_cases hys : ys = []
            · rw [if_pos (hlast.mpr hys),hnext,hys]
              rfl
            · rw [if_neg fun heq => hys (hlast.mp heq)]
          rw [instIter,walk,hstep,ih]
          intro j hj
          rw [hnext] at hj
          rw [hsplit]
          simp [List.mem_of_mem_head? hj]
    rw [h.firstInst,hwalk n _ fun i hi => List.mem_of_mem_head? hi]
    exact (h.instLinks block).walk_eq hn

end LayoutLists
end Codegen
end OlaLang
