import TreeJit.A64.Instr

/-!
# Making new code visible to instruction fetch

`cacheSync` is a complete routine: it takes a range `[x0, x1)`, cleans every data line and drops
every instruction line that meets the range, and returns.  The line sizes are read from the cache
type register.  It writes `x2` to `x6` and the flags.
-/

namespace TreeJit.A64

/-- one walk over the range in lines of `4 <<< CTR[lsb + 3 : lsb]` bytes, `op` on each line -/
def lineWalk (lsb : UInt32) (label : String) (op : Reg → Instr) : List (Line Instr) :=
  let start := Reg.x 0
  let stop := Reg.x 1
  let addr := Reg.x 2
  let ctr := Reg.x 3
  let line := Reg.x 4
  let four := Reg.x 5
  let mask := Reg.x 6
  [.instr (.ubfx line ctr lsb 4),
   .instr (.reg3 .lslv line four line),
   .instr (.subImm mask line 1 false),
   .instr (.reg3 .bic addr start mask),
   .mark label,
   .instr (op addr),
   .instr (.reg3 .add addr addr line),
   .instr (.cmp addr stop),
   .instr (.jumpIf condLO label),
   .instr .dsbISH]

def cacheSync : List (Line Instr) :=
  [.instr (.mrsCTR (.x 3)), .instr (.movImm (.x 5) 4)] ++
    lineWalk 16 "dcache" .dcCVAU ++ lineWalk 0 "icache" .icIVAU ++
    [.instr .isb, .instr .ret]

end TreeJit.A64
