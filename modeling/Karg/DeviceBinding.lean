import Karg.FormatStrings
import Karg.InterruptRouting

namespace Karg.DeviceBinding

open ByteMemory KernelMemory Kalloc FormatStrings Execution Devices InterruptRouting

/-- `str_cmp`. Plain `char` has no sign on RISC-V. -/
def strCmp (m : Memory) (lhs rhs : Nat) : Nat → Option Int
  | 0 => none
  | fuel + 1 =>
      if m.byte lhs ≠ 0 ∧ m.byte lhs = m.byte rhs then strCmp m (lhs + 1) (rhs + 1) fuel
      else some ((m.byte lhs).toNat - (m.byte rhs).toNat)

variable {σ : Type}

structure DevInit (σ : Type) where
  name : Nat
  compat : Nat
  init : Nat → DevNode → σ → Option (σ × Int)

inductive Report
  -- "driver %s returned errno %s for device %s"
  | failed (driver : Nat) (errno : Int) (node : Nat)
  -- "loaded driver %s for device %s"
  | loaded (driver node : Nat)
  -- "no driver is found for device %s"
  | noDriver (node : Nat)

def report (driver : Nat) (res : Int) (node : Nat) : Report :=
  if res < 0 then .failed driver (-res) node else .loaded driver node

def driverLoop (m : Memory) (fuel : Nat) (node : DevNode) : List (DevInit σ) → Option (Option (DevInit σ))
  | [] => some none
  | d :: inits => do
      let res ← strCmp m d.compat node.name fuel
      if res = 0 then some (some d) else driverLoop m fuel node inits

def initLoop (m : Memory) (inits : List (DevInit σ)) (devTable : Nat → DevNode) (i : Nat) (s : σ) (reports : List Report) :
    Nat → Option (σ × List Report)
  | 0 => none
  | fuel + 1 =>
      let node := devTable i
      if node.name = nullptr then some (s, reports)
      else do
        let found ← driverLoop m fuel node inits
        match found with
        | some d => do
            let (s, res) ← d.init fuel node s
            initLoop m inits devTable (i + 1) s (reports ++ [report d.name res node.name]) fuel
        | none => initLoop m inits devTable (i + 1) s (reports ++ [.noDriver node.name]) fuel

def init (m : Memory) (inits : List (DevInit σ)) (devTable : Nat → DevNode) (s : σ) (fuel : Nat) :
    Option (σ × List Report) :=
  initLoop m inits devTable 0 s [] fuel

/-- The devices from number `i` on, with their names, and then the end of the table. -/
def Table (m : Memory) (devTable : Nat → DevNode) : Nat → List (DevNode × List UInt8) → Prop
  | i, [] => (devTable i).name = nullptr
  | i, n :: nodes => devTable i = n.1 ∧ n.1.name ≠ nullptr ∧ TextAt m n.1.name n.2 ∧ Table m devTable (i + 1) nodes

def Compatible (m : Memory) (drivers : List (DevInit σ × List UInt8)) : Prop := ∀ d ∈ drivers, TextAt m d.1.compat d.2

/-- Each device in turn is given to the driver that is compatible with it, if there is one. -/
inductive Bound (drivers : List (DevInit σ × List UInt8)) :
    σ → List (DevNode × List UInt8) → σ → List Report → Prop
  | nil (s) : Bound drivers s [] s []
  | driver {s node s' res nodes s'' reports} (d) (hd : d ∈ drivers) (hn : d.2 = node.2)
      (hc : Converges (fun fuel => d.1.init fuel node.1 s) (s', res)) (h : Bound drivers s' nodes s'' reports) :
      Bound drivers s (node :: nodes) s'' (report d.1.name res node.1.name :: reports)
  | none {s node nodes s' reports} (hno : ∀ d ∈ drivers, d.2 ≠ node.2) (h : Bound drivers s nodes s' reports) :
      Bound drivers s (node :: nodes) s' (.noDriver node.1.name :: reports)

variable {m : Memory} {a b : Nat} {s t : List UInt8} {drivers drivers' : List (DevInit σ × List UInt8)}
  {devTable : Nat → DevNode} {nodes : List (DevNode × List UInt8)} {x x' : σ} {reports : List Report}

section Strings

theorem byte_sub_ne {c d : UInt8} (h : c ≠ d) : ((c.toNat : Int) - (d.toNat : Int)) ≠ 0 := by
  intro he
  have hn : c.toNat = d.toNat := by omega
  exact h (UInt8.toNat_inj.mp hn)

theorem strCmp_differ (h : ¬ (m.byte a ≠ 0 ∧ m.byte a = m.byte b)) :
    Converges (strCmp m a b) ((m.byte a).toNat - (m.byte b).toNat) := by
  refine ⟨1, fun fuel hfuel => ?_⟩
  obtain ⟨fuel, rfl⟩ := Nat.exists_eq_add_of_le' hfuel
  rw [strCmp, if_neg h]

theorem strCmp_converges (hs : TextAt m a s) (ht : TextAt m b t) : ∃ d, Converges (strCmp m a b) d ∧ (d = 0 ↔ s = t) := by
  induction s generalizing a b t with
  | nil =>
      have ha : m.byte a = 0 := hs
      refine ⟨_, strCmp_differ fun h => h.1 ha, ?_⟩
      rw [ha]
      cases t with
      | nil =>
          have hb : m.byte b = 0 := ht
          simp [hb]
      | cons d t =>
          obtain ⟨hd, hb, -⟩ := ht
          rw [hb]
          exact iff_of_false (byte_sub_ne (Ne.symm hd)) (by simp)
  | cons c s ih =>
      obtain ⟨hc, ha, hs⟩ := hs
      cases t with
      | nil =>
          have hb : m.byte b = 0 := ht
          refine ⟨_, strCmp_differ fun h => h.1 (h.2.trans hb), ?_⟩
          rw [ha, hb]
          exact iff_of_false (byte_sub_ne hc) (by simp)
      | cons d t =>
          obtain ⟨hd, hb, ht⟩ := ht
          by_cases hcd : c = d
          · subst hcd
            obtain ⟨r, ⟨N, hN⟩, hr⟩ := ih hs ht
            refine ⟨r, ⟨N + 1, fun fuel hfuel => ?_⟩, hr.trans (by simp)⟩
            obtain ⟨fuel, rfl⟩ := Nat.exists_eq_add_of_le' (Nat.le_trans (Nat.le_add_left 1 N) hfuel)
            rw [strCmp, if_pos ⟨ha ▸ hc, ha.trans hb.symm⟩]
            exact hN fuel (by omega)
          · refine ⟨_, strCmp_differ fun h => hcd (ha.symm.trans (h.2.trans hb)), ?_⟩
            rw [ha, hb]
            exact iff_of_false (byte_sub_ne hcd) (by simp [hcd])

end Strings

theorem driverLoop_converges (hc : Compatible m drivers) {node : DevNode} (ht : TextAt m node.name t) :
    Converges (fun fuel => driverLoop m fuel node (drivers.map (·.1)))
      ((drivers.find? fun d => d.2 = t).map (·.1)) := by
  induction drivers with
  | nil => exact .of_forall fun _ => rfl
  | cons d drivers ih =>
      obtain ⟨r, hr, hzero⟩ := strCmp_converges (hc d List.mem_cons_self) ht
      have hrest := ih fun e he => hc e (List.mem_cons_of_mem _ he)
      refine hr.bind (g := fun fuel r => if r = 0 then some (some d.1) else driverLoop m fuel node (drivers.map (·.1))) ?_
      by_cases hd : d.2 = t
      · rw [List.find?_cons_of_pos (by simpa using hd)]
        exact .of_forall fun _ => if_pos (hzero.mpr hd)
      · rw [List.find?_cons_of_neg (by simpa using hd)]
        have hne : r ≠ 0 := fun h => hd (hzero.mp h)
        simpa only [if_neg hne] using hrest

/-- With different strings at most one driver is compatible with a device, in whatever order they stand. -/
theorem find?_eq {d : DevInit σ × List UInt8} (hnd : (drivers.map (·.2)).Nodup) (hd : d ∈ drivers) (ht : d.2 = t) :
    (drivers.find? fun e => e.2 = t) = some d := by
  induction drivers with
  | nil => cases hd
  | cons e drivers ih =>
      obtain ⟨hnew, hnd⟩ := List.nodup_cons.mp hnd
      rcases List.mem_cons.mp hd with rfl | hd
      · exact List.find?_cons_of_pos (by simpa using ht)
      · have hne : e.2 ≠ t := by
          rintro rfl
          exact hnew (List.mem_map.mpr ⟨d, hd, ht⟩)
        rw [List.find?_cons_of_neg (by simpa using hne)]
        exact ih hnd hd

theorem initLoop_converges (hc : Compatible m drivers) (hnd : (drivers.map (·.2)).Nodup) {i : Nat}
    (ht : Table m devTable i nodes) (h : Bound drivers x nodes x' reports) (before : List Report) :
    Converges (fun fuel => initLoop m (drivers.map (·.1)) devTable i x before fuel) (x', before ++ reports) := by
  induction h generalizing i before with
  | nil x =>
      refine ⟨1, fun fuel hfuel => ?_⟩
      obtain ⟨fuel, rfl⟩ := Nat.exists_eq_add_of_le' hfuel
      have hend : (devTable i).name = nullptr := ht
      show initLoop m _ devTable i x before (fuel + 1) = _
      rw [initLoop, if_pos hend, List.append_nil]
  | @driver x node x₁ res nodes x' reports d hd hn hrun h ih =>
      obtain ⟨hi, hname, htext, ht⟩ := ht
      have hfound := driverLoop_converges hc htext
      rw [find?_eq hnd hd hn] at hfound
      obtain ⟨N₁, hN₁⟩ := hfound
      obtain ⟨N₂, hN₂⟩ := hrun
      obtain ⟨N₃, hN₃⟩ := ih ht (before ++ [report d.1.name res node.1.name])
      refine ⟨N₁ + N₂ + N₃ + 1, fun fuel hfuel => ?_⟩
      obtain ⟨fuel, rfl⟩ := Nat.exists_eq_add_of_le' (Nat.le_trans (Nat.le_add_left 1 _) hfuel)
      have h₁ : driverLoop m fuel node.1 (drivers.map (·.1)) = some (some d.1) := hN₁ fuel (by omega)
      have h₂ : d.1.init fuel node.1 x = some (x₁, res) := hN₂ fuel (by omega)
      have h₃ := hN₃ fuel (by omega)
      rw [List.append_assoc, List.singleton_append] at h₃
      show initLoop m _ devTable i x before (fuel + 1) = _
      rw [initLoop, hi, if_neg hname, h₁]
      simp only [Option.bind_eq_bind, Option.bind_some, h₂]
      exact h₃
  | @none x node nodes x' reports hno h ih =>
      obtain ⟨hi, hname, htext, ht⟩ := ht
      have hfound := driverLoop_converges hc htext
      rw [List.find?_eq_none.mpr (by simpa using hno)] at hfound
      obtain ⟨N₁, hN₁⟩ := hfound
      obtain ⟨N₃, hN₃⟩ := ih ht (before ++ [.noDriver node.1.name])
      refine ⟨N₁ + N₃ + 1, fun fuel hfuel => ?_⟩
      obtain ⟨fuel, rfl⟩ := Nat.exists_eq_add_of_le' (Nat.le_trans (Nat.le_add_left 1 _) hfuel)
      have h₁ : driverLoop m fuel node.1 (drivers.map (·.1)) = some none := hN₁ fuel (by omega)
      have h₃ := hN₃ fuel (by omega)
      rw [List.append_assoc, List.singleton_append] at h₃
      show initLoop m _ devTable i x before (fuel + 1) = _
      rw [initLoop, hi, if_neg hname, h₁]
      simp only [Option.bind_eq_bind, Option.bind_some]
      exact h₃

theorem Bound.perm (hp : drivers'.Perm drivers) (h : Bound drivers x nodes x' reports) :
    Bound drivers' x nodes x' reports := by
  induction h with
  | nil x => exact .nil x
  | driver d hd hn hc _ ih => exact .driver d (hp.mem_iff.mpr hd) hn hc ih
  | none hno _ ih => exact .none (fun d hd => hno d (hp.mem_iff.mp hd)) ih

/-- In whatever order the linker puts the drivers, `init` gives each device of the
table in turn to the one that is compatible with its name, goes on when a driver
fails or there is none, and reports what has become of each device. -/
theorem drivers_bound (hc : Compatible m drivers) (hnd : (drivers.map (·.2)).Nodup) (ht : Table m devTable 0 nodes)
    (h : Bound drivers x nodes x' reports) (hp : drivers'.Perm drivers) :
    Converges (fun fuel => init m (drivers'.map (·.1)) devTable x fuel) (x', reports) := by
  have hc' : Compatible m drivers' := fun d hd => hc d (hp.mem_iff.mp hd)
  have hnd' : (drivers'.map (·.2)).Nodup := ((hp.map (·.2)).nodup_iff).mpr hnd
  exact initLoop_converges hc' hnd' ht (h.perm hp) []

section Virt

def plicText : List UInt8 := [0x70, 0x6C, 0x69, 0x63]

def uartText : List UInt8 := [0x75, 0x61, 0x72, 0x74, 0x38, 0x32, 0x35, 0x30]

def virtStrings : Memory := textMemory 0x80201000 (plicText ++ 0 :: uartText)

def virtTable : Nat → DevNode
  | 0 => ⟨0x80201000, 0x0C000000, 0, 0⟩
  | 1 => ⟨0x80201005, 0x10000000, 10, 1⟩
  | _ => ⟨nullptr, 0, 0, 0⟩

def plicDriver : DevInit Board × List UInt8 :=
  (⟨0x80201000, 0x80201000, fun _ node b => some (plicInitDev b node)⟩, plicText)

def uartDriver (sym : Symbols) : DevInit Board × List UInt8 :=
  (⟨0x80201010, 0x80201005, fun fuel node b => uartInitDev sym fuel b node⟩, uartText)

def rawBoard (m : Memory) : Board := { bootBoard m with plic := ⟨0, fun _ => 0, 0⟩ }

theorem plicInitDev_raw (m : Memory) : plicInitDev (rawBoard m) (virtTable 0) = (bootBoard m, 0) := by
  have hregs : Function.update (fun _ : Nat => (0 : BitVec 32)) (usizeAdd 0x0C000000 prioThreshold) 0 = fun _ => 0 :=
    Function.update_eq_self _ _
  have hplic : Plic.set ⟨0x0C000000, fun _ => 0, 0 ||| csrSieSeie⟩ prioThreshold 0 =
      ⟨0x0C000000, fun _ => 0, csrSieSeie⟩ := by
    rw [Plic.set, Plic.reg]
    simp only [hregs]
    rfl
  show ({ rawBoard m with plic := Plic.set ⟨0x0C000000, fun _ => 0, 0 ||| csrSieSeie⟩ prioThreshold 0 }, (0 : Int)) = _
  rw [hplic]
  rfl

/-- On the virt platform PLIC and then the serial line are set up, also when the
linker puts the driver of the line first. -/
theorem drivers_bound_virt : ∃ m b, Present b 0 ∧ Converges (fun fuel => init virtStrings
    ([uartDriver ⟨0x80300000, 0x80300010⟩, plicDriver].map (·.1)) virtTable (rawBoard m) fuel)
      (b, [.loaded 0x80201000 0x80201000, .loaded 0x80201010 0x80201005]) := by
  obtain ⟨m, b, hm, hc⟩ := bootBoard_init (virtTable 1)
  have hcap : 0 < driverDevCapacity := by decide
  have hinit : Inited ⟨0x80300000, 0x80300010⟩ b [(virtTable 1, 0)] := .accept (.start hm) hcap (by decide) hc
  have hpresent : Present b 0 := by
    obtain ⟨live, hr⟩ := inited_routed hinit
    rcases hr.present 0 _ rfl with ⟨-, hp⟩ | ⟨hno, -⟩
    · exact hp
    · cases hno
  have hplic : TextAt virtStrings 0x80201000 plicText := by
    simp [TextAt, virtStrings, textMemory, plicText, uartText]
  have huart : TextAt virtStrings 0x80201005 uartText := by
    simp [TextAt, virtStrings, textMemory, plicText, uartText]
  have hcompat : Compatible virtStrings [plicDriver, uartDriver ⟨0x80300000, 0x80300010⟩] := by
    intro d hd
    rcases List.mem_pair.mp hd with rfl | rfl
    · exact hplic
    · exact huart
  have hnd : ([plicDriver, uartDriver ⟨0x80300000, 0x80300010⟩].map (·.2)).Nodup := by
    show [plicText, uartText].Nodup
    decide
  have htable : Table virtStrings virtTable 0 [(virtTable 0, plicText), (virtTable 1, uartText)] :=
    ⟨rfl, by decide, hplic, rfl, by decide, huart, rfl⟩
  have hbound : Bound [plicDriver, uartDriver ⟨0x80300000, 0x80300010⟩] (rawBoard m)
      [(virtTable 0, plicText), (virtTable 1, uartText)] b
      [report 0x80201000 0 0x80201000, report 0x80201010 0 0x80201005] :=
    .driver plicDriver List.mem_cons_self rfl (.of_forall fun _ => congrArg some (plicInitDev_raw m))
      (.driver (uartDriver ⟨0x80300000, 0x80300010⟩) (by simp) rfl hc (.nil b))
  exact ⟨m, b, hpresent, drivers_bound hcompat hnd htable hbound (.swap _ _ _)⟩

end Virt

end Karg.DeviceBinding
