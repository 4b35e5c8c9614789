import Relational.Conversion.Find
import Relational.Optimize.Basic

/-!
# Choosing devices

Every node is annotated with the devices of the table variables below it. A node below which there is a
single device is evaluated there, if the device supports its operator and those of the nodes below it
that are evaluated there too.
-/

namespace Relational

open Passing

/-- The devices of the table variables of a node and those found for its children. -/
def potentialDevices (p : Plan) : List String :=
  let own := match p.construct with
    | .tableVarReference tv => if tv.device = "" then [] else [tv.device]
    | _ => []
  sortedNames (own ++ p.children.flatMap (·.annotations.potentialDevices))

def determinePotentialDevice (p : Plan) : Passing Transformed :=
  let devices := potentialDevices p
  if devices = p.annotations.potentialDevices then return .same p
  else return .changed (p.annotate fun a => { a with potentialDevices := devices })

def determinePotentialDevices (p : Plan) : Passing Transformed :=
  p.transform determinePotentialDevice

def isSupportedBy (device : Device) (p : Plan) : Bool :=
  p.construct.operator?.all device.supports &&
    p.children.all fun child =>
      child.annotations.device ≠ device.name || child.annotations.isSupported

def determineDevice (catalog : Option Catalog) (p : Plan) : Passing Transformed := do
  match p.annotations.potentialDevices with
  | [name] =>
    match catalog.bind (·.device? name) with
    | none => throw (.cause (.unknownDevice name))
    | some device =>
      let isSupported := isSupportedBy device p
      if p.annotations.device = name ∧ p.annotations.isSupported = isSupported then
        return .same p
      else
        return .changed (p.annotate fun a => { a with device := name, isSupported })
  | _ => return .same p

def determineDevices (catalog : Option Catalog) (p : Plan) : Passing Transformed :=
  p.transform (determineDevice catalog)

end Relational
