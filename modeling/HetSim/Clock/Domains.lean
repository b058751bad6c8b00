import HetSim.Library.Lazy

/-!
# Clock domains and clocked objects

A clocked object keeps the tick and the number of its next edge, and catches them up when it is
asked. A change of the period reaches the objects of the domain and of all derived domains, each
while its domain still has the old period. Ticks do not overflow; no period or divider is zero.
-/

namespace HetSim.Clock

universe u
variable {O : Type u}

structure Clocked (O : Type u) where
  name : O
  tick : ℕ
  cycle : ℕ
  deriving DecidableEq

def divCeil (a b : ℕ) : ℕ := (a + b - 1) / b

def Clocked.update (clockPeriod : ℕ+) (curTick : ℕ) (c : Clocked O) : Clocked O :=
  if curTick ≤ c.tick then c
  else
    -- the common case of a single period
    let c := { c with tick := c.tick + clockPeriod, cycle := c.cycle + 1 }
    if curTick ≤ c.tick then c
    else
      let elapsedCycles := divCeil (curTick - c.tick) clockPeriod
      { c with
        cycle := c.cycle + elapsedCycles
        tick := c.tick + elapsedCycles * clockPeriod }

/-- A vector of derived clock domains. -/
inductive DerivedClockDomains (O : Type u)
  | nil
  | cons (clockDivider clockPeriod : ℕ+) (members : List (Clocked O))
      (children rest : DerivedClockDomains O)

structure SrcClockDomain (O : Type u) where
  clockPeriod : ℕ+
  members : List (Clocked O)
  children : DerivedClockDomains O

def DerivedClockDomains.updateClockPeriod (curTick : ℕ) (parent : ℕ+) :
    DerivedClockDomains O → DerivedClockDomains O
  | nil => nil
  | cons clockDivider clockPeriod members children rest =>
    let members := members.map (Clocked.update clockPeriod curTick)
    let clockPeriod := parent * clockDivider
    cons clockDivider clockPeriod members (children.updateClockPeriod curTick clockPeriod)
      (rest.updateClockPeriod curTick parent)

/-- `SrcClockDomain::clockPeriod`, which is fatal for a period of zero. -/
def SrcClockDomain.setClockPeriod (clockPeriod : ℕ+) (curTick : ℕ) (d : SrcClockDomain O) :
    SrcClockDomain O where
  clockPeriod := clockPeriod
  members := d.members.map (Clocked.update d.clockPeriod curTick)
  children := d.children.updateClockPeriod curTick clockPeriod

def DerivedClockDomains.mapMembers (f : ℕ+ → Clocked O → Clocked O) :
    DerivedClockDomains O → DerivedClockDomains O
  | nil => nil
  | cons clockDivider clockPeriod members children rest =>
    cons clockDivider clockPeriod (members.map (f clockPeriod)) (children.mapMembers f)
      (rest.mapMembers f)

def SrcClockDomain.mapMembers (f : ℕ+ → Clocked O → Clocked O) (d : SrcClockDomain O) :
    SrcClockDomain O where
  clockPeriod := d.clockPeriod
  members := d.members.map (f d.clockPeriod)
  children := d.children.mapMembers f

section Query

variable [DecidableEq O] (name : O) (curTick : ℕ)

def SrcClockDomain.ask (d : SrcClockDomain O) : SrcClockDomain O :=
  d.mapMembers fun clockPeriod c => if c.name = name then c.update clockPeriod curTick else c

def findMember (clockPeriod : ℕ+) (members : List (Clocked O)) : Option (ℕ+ × Clocked O) :=
  (members.find? (·.name = name)).map (clockPeriod, ·)

/-- The object, and the period of its domain. -/
def DerivedClockDomains.find : DerivedClockDomains O → Option (ℕ+ × Clocked O)
  | nil => none
  | cons _ clockPeriod members children rest =>
    findMember name clockPeriod members <|> children.find <|> rest.find

def SrcClockDomain.find (d : SrcClockDomain O) : Option (ℕ+ × Clocked O) :=
  findMember name d.clockPeriod d.members <|> d.children.find name

def SrcClockDomain.clockEdge (d : SrcClockDomain O) (cycles : ℕ) : Option ℕ :=
  ((d.ask name curTick).find name).map fun (clockPeriod, c) => c.tick + clockPeriod * cycles

def SrcClockDomain.curCycle (d : SrcClockDomain O) : Option ℕ :=
  ((d.ask name curTick).find name).map fun (_, c) => c.cycle

end Query

end HetSim.Clock
