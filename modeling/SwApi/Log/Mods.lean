import SwApi.Library.Transition
import SwApi.Url.Model

/-! `swlog.c`: the modules that may write to the log. -/
namespace SwApi.Log
open Library
open Url (strstr)

def modsMax : Nat := 64

def infoMax : Nat := 1023

/-- The variables of the filter: `m_allmods_is_allowed`, `m_mods_info`, `m_mods_list`, `m_mods_num`,
and whether there is a text in `m_targets_info`. -/
structure Mods where
  allAllowed : Bool
  info : Bytes
  list : List Nat
  num : Nat
  targets : Bool
deriving DecidableEq

def Mods.init (targets : Bool) : Mods := ⟨false, [], List.replicate modsMax 0, 0, targets⟩

/-- `calc_imod`, with the bytes in the order of a little-endian machine. -/
def calcImod (mod : Bytes) : Nat :=
  let t (i : Nat) : Nat := (mod.getD i 0).toNat
  t 0 + t 1 * 2 ^ 8 + t 2 * 2 ^ 16 + t 3 * 2 ^ 24

def allMods : Nat := calcImod [97, 108, 108]

/-- The loop of `find_imod` from the entry `i` on, with the entries counted before. -/
def findLoop (imod num : Nat) : List Nat → Nat → Nat → Option Nat
  | [], _, _ => none
  | x :: rest, count, i =>
      if count < num then
        if x = imod then some i
        else findLoop imod num rest (if x ≠ 0 then count + 1 else count) (i + 1)
      else none

namespace Mods

/-- `none` is -1. -/
def findImod (m : Mods) (imod : Nat) : Option Nat := findLoop imod m.num m.list 0 0

def logModIsAllowed (m : Mods) (mod : Bytes) : Bool :=
  m.allAllowed || (m.findImod (calcImod mod)).isSome

def store (m : Mods) (imod : Nat) : Option Mods :=
  if m.num < modsMax then some { m with list := m.list.set m.num imod, num := m.num + 1 } else none

/-- The loop of `sw_log_set_mods` over the parts between commas; nothing is behind a last comma. -/
def setLoop : List Bytes → Mods → Option Mods
  | [], m => some m
  | q :: rest, m =>
      if q = [] ∧ rest = [] then some m
      else do
        let imod := calcImod (q.take 63)
        let m ← m.store imod
        setLoop rest { m with allAllowed := m.allAllowed || decide (imod = allMods) }

def setMods (m : Mods) (mods : Bytes) : Option (Int × Mods) := do
  let info := mods.take infoMax
  let m ← setLoop (info.splitOn 44)
    { m with num := 0, info := info, list := List.replicate modsMax 0 }
  some (m.num, m)

def infoWith (info mod : Bytes) : Bytes :=
  (if info = [] then mod else info ++ 44 :: mod).take infoMax

def addMod (m : Mods) (mod : Bytes) : Option (Int × Mods) :=
  let imod := calcImod mod
  let m := { m with allAllowed := m.allAllowed || decide (imod = allMods) }
  if (m.findImod imod).isSome then some (0, m)
  else if m.num = modsMax then some (-2, m)
  else do
    let m ← { m with info := infoWith m.info mod }.store imod
    some (0, m)

/-- The text of `m_mods_info` without a module. If nothing follows it and a text stands in
`m_targets_info`, the comma before it is taken away, too; without a comma that is a store before the
array. -/
def infoWithout (targets : Bool) (info mod : Bytes) : Option Bytes :=
  match strstr mod info with
  | none => some info
  | some i =>
      let rest := ((info.drop i).dropWhile (· ≠ 44)).drop 1
      if targets = true ∧ rest = [] then if i = 0 then none else some (info.take (i - 1))
      else some (info.take i ++ rest)

def delMod (m : Mods) (mod : Bytes) : Option (Int × Mods) :=
  let imod := calcImod mod
  let m := { m with allAllowed := m.allAllowed && decide (imod ≠ allMods) }
  match m.findImod imod with
  | none => some (0, m)
  | some i => do
      let info ← infoWithout m.targets m.info mod
      some (0, { m with list := m.list.set i 0, num := m.num - 1, info := info })

def clearAllmods (m : Mods) : Int × Mods :=
  (0, { m with info := [], num := 0, list := List.replicate modsMax 0, allAllowed := false })

end Mods

structure ModName where
  bytes : Bytes
  nonempty : bytes ≠ []
  plain : 0 ∉ bytes ∧ 44 ∉ bytes
deriving DecidableEq

def ModName.key (name : ModName) : Nat := calcImod name.bytes

def textOf (names : List ModName) : Bytes := List.intercalate [44] (names.map ModName.bytes)

inductive Call where
  | setMods (names : List ModName)
  | addMod (names : List ModName)
  | delMod (names : List ModName)
  | clearAllmods

def Mods.step (m : Mods) : Call → Option (Int × Mods)
  | .setMods names => m.setMods (textOf names)
  | .addMod names => m.addMod (textOf names)
  | .delMod names => m.delMod (textOf names)
  | .clearAllmods => some m.clearAllmods

end SwApi.Log
