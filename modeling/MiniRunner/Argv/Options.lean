import MiniRunner.Argv.Usage

/-!
# The options as they are read

`set-limit` and `config job` look for their options among all their tokens, so an operand
that is spelled like an option is taken for one. No accepted number is, since `atof` reads 0
from an option word; the service name of `set-limit` can be, and then the command still
reads what it is meant to if the name is `-mem` and an amount follows.
-/

namespace MiniRunner.Argv

open Clib

variable {D : Type} {fl : Doubles D}

/-! ## `set-limit` -/

@[simp] theorem limitOption_cpu : limitOption (.ofText "-cpu") = some .cpu := by decide

@[simp] theorem limitOption_mem : limitOption (.ofText "-mem") = some .mem := by decide

@[simp] theorem limitOption_type : limitOption (.ofText "--type") = some .type := by decide

@[simp] theorem limitOption_setLimit : limitOption (.ofText "set-limit") = none := by decide

@[simp] theorem limitOption_memType (t : MemType) : limitOption t.text = none := by
  cases t <;> decide

theorem limitOption_eq_cpu {x : CStr} : limitOption x = some .cpu ↔ x = .ofText "-cpu" := by
  unfold limitOption
  split
  · simp_all
  split
  · simp_all
  split <;> simp_all

theorem limitOption_eq_mem {x : CStr} : limitOption x = some .mem ↔ x = .ofText "-mem" := by
  unfold limitOption
  split
  · rename_i h
    rw [h]
    decide
  split
  · simp_all
  split <;> simp_all

theorem mem_of_limitOption {x : CStr} {o : LimitOption} (h : limitOption x = some o) :
    x ∈ [CStr.ofText "-cpu", .ofText "-mem", .ofText "-t", .ofText "--type"] := by
  unfold limitOption at h
  simp only [List.mem_cons, List.not_mem_nil, or_false]
  split at h
  · tauto
  split at h
  · tauto
  split at h
  · tauto
  · cases h

theorem limitOption_of_convertToFloat {x : CStr} {cpu : D} (h : convertToFloat fl x = some cpu) :
    limitOption x = none := by
  rw [← Option.not_isSome_iff_eq_none, Option.isSome_iff_exists]
  rintro ⟨o, ho⟩
  have hnumberless : numberless x.bytes = true := by
    have := mem_of_limitOption ho
    simp only [List.mem_cons, List.not_mem_nil, or_false] at this
    rcases this with rfl | rfl | rfl | rfl <;> decide
  rw [convertToFloat_numberless fl hnumberless] at h
  cases h

/-- Nor an amount. -/
theorem limitOption_of_amountOf {x : CStr} {t : MemType} {a : Amount}
    (h : Usage.amountOf fl x t = some a) : limitOption x = none := by
  rw [← Option.not_isSome_iff_eq_none, Option.isSome_iff_exists]
  rintro ⟨o, ho⟩
  have hmem := mem_of_limitOption ho
  simp only [List.mem_cons, List.not_mem_nil, or_false] at hmem
  have hatoi : atoi x = 0 := by rcases hmem with rfl | rfl | rfl | rfl <;> decide
  unfold Usage.amountOf at h
  cases t with
  | standard =>
    have hunit : unitNumberless [107, 109, 103] x = true := by
      rcases hmem with rfl | rfl | rfl | rfl <;> decide
    rw [convertToByte_numberless fl hunit hatoi] at h
    cases h
  | custom =>
    have hunit : unitNumberless [103] x = true := by
      rcases hmem with rfl | rfl | rfl | rfl <;> decide
    rw [convertToByteLrg_numberless fl hunit hatoi] at h
    cases h
  | extreme =>
    have hunit : unitNumberless [116] x = true := by
      rcases hmem with rfl | rfl | rfl | rfl <;> decide
    rw [convertToByteExtr_numberless fl hunit hatoi] at h
    cases h

def withType (type : Option MemType) (a : LimitArgs D) : LimitArgs D :=
  match type with
  | none => a
  | some .standard => { a with useLarge := false }
  | some .custom => { a with useLarge := true }
  | some .extreme => { a with useExtreme := true }

theorem typeArgs_cons {x : CStr} (h : limitOption x ≠ some .type) (rest : List CStr)
    (a : LimitArgs D) : typeArgs (x :: rest) a = typeArgs rest a := by
  rw [typeArgs, if_neg h]

theorem limitArgs_cons {x : CStr} (hcpu : limitOption x ≠ some .cpu)
    (hmem : limitOption x ≠ some .mem) (rest : List CStr) (a : LimitArgs D) :
    limitArgs fl (x :: rest) a = limitArgs fl rest a := by
  rw [limitArgs]
  split
  · contradiction
  · contradiction
  · rfl

theorem typeArgs_type (type : MemType) (a : LimitArgs D) :
    typeArgs [.ofText "--type", type.text] a = some (withType (some type) a) := by
  have hne : limitOption type.text ≠ some .type := by simp
  rw [typeArgs, if_pos limitOption_type]
  cases type
  all_goals simp only [List.head?_cons, MemType.text] at hne ⊢
  · rw [if_pos trivial, typeArgs_cons hne]
    rfl
  · rw [if_neg (by decide), if_pos trivial, typeArgs_cons hne]
    rfl
  · rw [if_neg (by decide), if_neg (by decide), if_pos trivial, typeArgs_cons hne]
    rfl

section amount

variable {amount : Option (CStr × Option MemType)} (hamount : ∀ x ∈ amount, limitOption x.1 = none)
include hamount

theorem typeArgs_amountText (a : LimitArgs D) :
    typeArgs (Usage.amountText amount) a = some (withType (amount.bind (·.2)) a) := by
  match amount with
  | none => rfl
  | some (size, none) =>
    have hsize := hamount _ rfl
    rw [Usage.amountText, typeArgs_cons (by simp), typeArgs_cons (by simp [hsize])]
    rfl
  | some (size, some type) =>
    have hsize := hamount _ rfl
    rw [Usage.amountText, typeArgs_cons (by simp), typeArgs_cons (by simp [hsize]), typeArgs_type]
    rfl

theorem limitArgs_amountText (a : LimitArgs D) :
    limitArgs fl (Usage.amountText amount) a = some (match amount with
      | none => a
      | some (size, type) =>
        { withType type { a with memBytesStr := some size } with doMemLimit := true }) := by
  have htypes (a : LimitArgs D) := typeArgs_amountText hamount a
  match amount with
  | none => rfl
  | some (size, none) =>
    have hsize := hamount _ rfl
    rw [Usage.amountText] at htypes ⊢
    simp only [limitArgs, limitOption_mem, List.head?_cons, htypes, hsize]
    rfl
  | some (size, some type) =>
    have hsize := hamount _ rfl
    rw [Usage.amountText] at htypes ⊢
    simp only [limitArgs, limitOption_mem, List.head?_cons, htypes, hsize, limitOption_type,
      limitOption_memType]
    rfl

end amount

section cores

variable {cores : Option CStr} (hcores : ∀ x ∈ cores, ∃ cpu, convertToFloat fl x = some cpu)
include hcores

theorem typeArgs_coresText (rest : List CStr) (a : LimitArgs D) :
    typeArgs (Usage.coresText cores ++ rest) a = typeArgs rest a := by
  match cores with
  | none => rfl
  | some x =>
    obtain ⟨cpu, hcpu⟩ := hcores x rfl
    have hx := limitOption_of_convertToFloat hcpu
    rw [Usage.coresText, List.cons_append, List.cons_append, typeArgs_cons (by simp),
      typeArgs_cons (by simp [hx])]
    rfl

theorem limitArgs_coresText (rest : List CStr) (a : LimitArgs D) :
    limitArgs fl (Usage.coresText cores ++ rest) a = limitArgs fl rest
      { a with
        cpuLimit := (cores.bind (convertToFloat fl)).getD a.cpuLimit
        doCpuLimit := cores.isSome || a.doCpuLimit } := by
  match cores with
  | none => rfl
  | some x =>
    obtain ⟨cpu, hcpu⟩ := hcores x rfl
    have hx := limitOption_of_convertToFloat hcpu
    rw [Usage.coresText, List.cons_append, List.cons_append, limitArgs]
    simp only [limitOption_cpu, List.head?_cons, hcpu]
    rw [limitArgs_cons (by simp [hx]) (by simp [hx])]
    simp [hcpu]

end cores

/-- The local variables that a command of this form leaves. -/
def readLimits (fl : Doubles D) (cores : Option CStr) (amount : Option (CStr × Option MemType)) :
    LimitArgs D where
  cpuLimit := (cores.bind (convertToFloat fl)).getD fl.zero
  memBytesStr := amount.map (·.1)
  useLarge := amount.bind (·.2) = some .custom
  useExtreme := amount.bind (·.2) = some .extreme
  doCpuLimit := cores.isSome
  doMemLimit := amount.isSome

/-- **The options of `set-limit`** are read as they are meant. -/
theorem limitArgs_operands {serviceName : CStr} {cores : Option CStr}
    {amount : Option (CStr × Option MemType)}
    (hname : (Usage.setLimit serviceName cores amount).Parses)
    (hcores : ∀ x ∈ cores, ∃ cpu, convertToFloat fl x = some cpu)
    (hamount : ∀ x ∈ amount, limitOption x.1 = none) :
    limitArgs fl (.ofText "set-limit" :: (Usage.setLimit serviceName cores amount).operands)
      ⟨fl.zero, none, false, false, false, false⟩ = some (readLimits fl cores amount) := by
  rw [limitArgs_cons (by simp) (by simp), Usage.operands, List.cons_append]
  have hcpu : limitOption serviceName ≠ some .cpu := mt limitOption_eq_cpu.mp hname.1
  by_cases hmem : limitOption serviceName = some .mem
  · -- the name is taken for an option, and what it sets is set again
    have hne : amount ≠ none := hname.2 (limitOption_eq_mem.mp hmem)
    obtain ⟨first, rest, hrest⟩ : ∃ first rest,
        Usage.coresText cores ++ Usage.amountText amount = first :: rest := by
      match cores, amount with
      | some _, _ => exact ⟨_, _, rfl⟩
      | none, some (_, none) => exact ⟨_, _, rfl⟩
      | none, some (_, some _) => exact ⟨_, _, rfl⟩
    have htypes (a : LimitArgs D) : typeArgs (serviceName :: (first :: rest)) a =
        some (withType (amount.bind (·.2)) a) := by
      rw [typeArgs_cons (by simp [hmem]), ← hrest, typeArgs_coresText hcores,
        typeArgs_amountText hamount]
    rw [hrest, limitArgs]
    simp only [hmem, List.head?_cons, htypes]
    rw [← hrest, limitArgs_coresText hcores, limitArgs_amountText hamount]
    match amount with
    | some (size, none) => cases cores <;> rfl
    | some (size, some type) => cases cores <;> cases type <;> rfl
  · rw [limitArgs_cons hcpu hmem, limitArgs_coresText hcores, limitArgs_amountText hamount]
    match amount with
    | none => cases cores <;> rfl
    | some (size, none) => cases cores <;> rfl
    | some (size, some type) => cases cores <;> cases type <;> rfl

/-- A name that is spelled `-cpu`, or `-mem` without an amount, is taken for an option: nothing
is read, or an amount that converts to 0. -/
theorem limitArgs_misread {serviceName : CStr} {cores : Option CStr}
    {amount : Option (CStr × Option MemType)}
    (hname : ¬(Usage.setLimit serviceName cores amount).Parses)
    (hcores : ∀ x ∈ cores, ∃ cpu, convertToFloat fl x = some cpu)
    (hgiven : cores ≠ none ∨ amount ≠ none) (a : LimitArgs D)
    (h : limitArgs fl (.ofText "set-limit" :: (Usage.setLimit serviceName cores amount).operands)
      ⟨fl.zero, none, false, false, false, false⟩ = some a) :
    a.doCpuLimit = true ∧ a.memBytesStr = some (.ofText "-cpu") ∧ a.useLarge = false ∧
      a.useExtreme = false := by
  rw [limitArgs_cons (by simp) (by simp), Usage.operands, List.cons_append] at h
  by_cases hcpu : serviceName = .ofText "-cpu"
  · have hnone (x : CStr) (hx : x = .ofText "-cpu" ∨ x = .ofText "-mem") :
        convertToFloat fl x = none :=
      convertToFloat_numberless fl (by rcases hx with rfl | rfl <;> decide)
    subst hcpu
    cases cores with
    | some x => simp [limitArgs, Usage.coresText, hnone] at h
    | none =>
      rcases amount with _ | ⟨_, _ | _⟩
      · simp at hgiven
      · simp [limitArgs, Usage.coresText, Usage.amountText, hnone] at h
      · simp [limitArgs, Usage.coresText, Usage.amountText, hnone] at h
  · have hmem : serviceName = .ofText "-mem" ∧ amount = none := by
      by_contra hno
      exact hname ⟨hcpu, fun h hamount => hno ⟨h, hamount⟩⟩
    obtain ⟨rfl, rfl⟩ := hmem
    cases cores with
    | none => simp at hgiven
    | some x =>
      obtain ⟨cpu, hx⟩ := hcores x rfl
      have hoption := limitOption_of_convertToFloat hx
      simp [limitArgs, typeArgs, Usage.coresText, Usage.amountText, hx, hoption] at h
      subst h
      exact ⟨rfl, rfl, rfl, rfl⟩

/-! ## `config job` -/

theorem jobOption_of_ne {w : Nat} {convert : CStr → BitVec w}
    (hconvert : ∀ x : CStr, numberless x.bytes = true → convert x = 0) {x : CStr}
    (hx : convert x ≠ 0) : jobOption x = none := by
  have hne (y : CStr) (hy : numberless y.bytes = true) : x ≠ y := by
    rintro rfl
    exact hx (hconvert x hy)
  unfold jobOption
  rw [if_neg, if_neg]
  · exact not_or.mpr ⟨hne _ (by decide), hne _ (by decide)⟩
  · exact not_or.mpr ⟨hne _ (by decide), hne _ (by decide)⟩

theorem jobLimitOf_some {w : Nat} {convert : CStr → BitVec w} {long : Bool} {x : CStr}
    {v : BitVec w} (h : Usage.jobLimitOf convert (some (long, x)) = some v) :
    convert x ≠ 0 ∧ convert x = v := by
  simp only [Usage.jobLimitOf] at h
  split at h
  · cases h
  · rename_i hx
    exact ⟨hx, Option.some.inj h⟩

/-- **The options of `config job`** are read as they are meant. -/
theorem jobArgs_operands {cores amount : Option (Bool × CStr)} {cpuLimit : BitVec 64}
    {memLimit : BitVec 128} (hcores : Usage.jobLimitOf (convertToSeconds fl) cores = some cpuLimit)
    (hamount : Usage.jobLimitOf (convertToBytesJob fl) amount = some memLimit) :
    jobArgs fl (Usage.configJob cores amount).operands (0, 0) = some (cpuLimit, memLimit) := by
  have hjob : jobOption (.ofText "job") = none := by decide
  have hcpu (long : Bool) : jobOption (if long then .ofText "--max-cpu" else .ofText "-mc") =
      some .maxCpu := by cases long <;> decide
  have hmem (long : Bool) : jobOption (if long then .ofText "--max-memory" else .ofText "-mm") =
      some .maxMemory := by cases long <;> decide
  have hamountArgs (a : BitVec 64) : jobArgs fl
      (Usage.jobOptionText (.ofText "--max-memory") (.ofText "-mm") amount) (a, 0) =
        some (a, memLimit) := by
    match amount with
    | none =>
      cases hamount
      rfl
    | some (long, x) =>
      obtain ⟨hx, rfl⟩ := jobLimitOf_some hamount
      have hoption := jobOption_of_ne (fun x => convertToBytesJob_numberless fl) hx
      simp only [Usage.jobOptionText, jobArgs, hmem, List.head?_cons, if_neg hx, hoption]
  rw [Usage.operands, List.cons_append, jobArgs]
  simp only [hjob]
  match cores with
  | none =>
    cases hcores
    exact hamountArgs 0
  | some (long, x) =>
    obtain ⟨hx, rfl⟩ := jobLimitOf_some hcores
    have hoption := jobOption_of_ne (fun x => convertToSeconds_numberless fl) hx
    simp only [Usage.jobOptionText, List.cons_append, jobArgs, hcpu, List.head?_cons, if_neg hx,
      hoption]
    exact hamountArgs _

end MiniRunner.Argv
