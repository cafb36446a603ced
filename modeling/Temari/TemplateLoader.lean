import Temari.Rounds
import Temari.FlatJson
import Temari.Base64
import Mathlib.Logic.Function.Basic

/-! Loading a template, from the JSON of the key server or from the binary format. -/
namespace Temari.TemplateLoader
open RoundMachine Rounds Utf8 FlatJson Base64

def ctxSize : Nat := 0x8000

/-- `u32::from_le_bytes(b[pos..pos + 4])`. -/
def wordAt (b : Bytes) (pos : Nat) : Option Word := do
  return fromLeBytes (← b[pos]?) (← b[pos + 1]?) (← b[pos + 2]?) (← b[pos + 3]?)

/-- `st[i]` from the words at this offset. -/
def fillSlot (data : Bytes) (off : Nat) (st : St) (i : Nat) : Option St := do
  return st.setIfInBounds i (← wordAt data (off + i * 4))

/-- A binary template file: ctx, 8192 state words of which the first are kept, registers. -/
def loadBinaryTemplate (data : Bytes) : Option Template := do
  let fileStSize := 8192
  if data.length < ctxSize + fileStSize * 4 + 20 then none
  let off := ctxSize
  let st ← (List.range stSize).foldlM (fillSlot data off) (Vector.replicate stSize 0)
  let off := off + fileStSize * 4
  let rdx ← wordAt data off
  let rcx ← wordAt data (off + 4)
  let rax ← wordAt data (off + 8)
  let r9 ← wordAt data (off + 12)
  let rbp ← wordAt data (off + 16)
  return { ctx := data.take ctxSize, stInit := st, r1Entry := { rdx, rcx, rax, r9, rbp } }

/-- The state slots, as offsets within the state blob. -/
def stSlots : List Nat :=
  [0x30, 0x40, 0x48, 0x50, 0x58, 0x5a, 0x60, 0x68, 0x70, 0x72, 0x78, 0x80, 0x88, 0x90, 0x96,
    0x98, 0xa0, 0xb0, 0xc0, 0xc8, 0xd0, 0xd8, 0xe0, 0xe8, 0xf0, 0xf8, 0x100, 0x104, 0x108,
    0x112, 0x118, 0x120, 0x130, 0x144, 0x150, 0x152, 0x158, 0x160, 0x168, 0x170, 0x178, 0x180,
    0x188, 0x190, 0x192, 0x198, 0x1a0, 0x1a8, 0x1b0, 0x1b8, 0x1c0, 0x200, 0x208, 0x210, 0x216,
    0x218, 0x220, 0x224, 0x228, 0x230, 0x232, 0x238, 0x240, 0x248, 0x250, 0x256, 0x258, 0x260,
    0x264, 0x268, 0x270, 0x280, 0x288, 0x290, 0x298, 0x2a0, 0x2a8, 0x2b0, 0x2b8, 0x2c0, 0x2c8,
    0x2d0, 0x2d8, 0x2e0, 0x2e8, 0x2f0, 0x2f8, 0x300, 0x304, 0x308, 0x310, 0x318, 0x320, 0x328,
    0x330, 0x336, 0x338, 0x340, 0x344, 0x348, 0x350, 0x352, 0x358, 0x360, 0x368, 0x370, 0x376,
    0x378, 0x380, 0x384, 0x388, 0x390, 0x392, 0x398, 0x3b0, 0x3b8, 0x3c0, 0x3c8, 0x3d0, 0x3e0,
    0x3e8, 0x3f8, 0x400, 0x408, 0x410, 0x416, 0x418, 0x420, 0x424, 0x428, 0x430, 0x432, 0x440,
    0x448, 0x450, 0x460, 0x468, 0x470, 0x478, 0x480, 0x488, 0x490, 0x4d8, 0x4e0, 0x4e8, 0x4f0,
    0x4f8, 0x500, 0x508, 0x510, 0x512, 0x518, 0x520, 0x528, 0x530, 0x536, 0x538, 0x540, 0x548,
    0x550, 0x552, 0x558, 0x560, 0x568, 0x570, 0x576, 0x578, 0x580, 0x584, 0x588, 0x590, 0x592,
    0x598, 0x5a0, 0x5a8, 0x5b0, 0x5b8, 0x5c0, 0x5c8, 0x5d8, 0x5e8, 0x5f0, 0x5f8, 0x600, 0x608,
    0x610, 0x616, 0x618, 0x620, 0x624, 0x628, 0x638, 0x640, 0x648, 0x656, 0x658, 0x660, 0x664,
    0x668, 0x670, 0x672, 0x678, 0x680, 0x688, 0x690, 0x696, 0x698, 0x6a8, 0x6b0, 0x6b8, 0x6c0,
    0x6c8, 0x6d8, 0x6e0, 0x6e8, 0x6f0, 0x6f8, 0x700, 0x708, 0x720, 0x728, 0x736, 0x740, 0x752,
    0x760, 0x768, 0x770, 0x778, 0x780, 0x792, 0x816, 0x824, 0x872, 0x912, 0x944, 0x952, 0x960,
    0x992, 0x1040, 0x1088, 0x1328, 0x1360, 0x1368, 0x1384, 0x1408, 0x1416, 0x1424, 0x1432,
    0x1440, 0x1448, 0x1456, 0x1480, 0x1512, 0x1528, 0x1536, 0x1552, 0x1560, 0x1568, 0x1576,
    0x1632, 0x1704, 0x1720, 0x1760]

def ParseIntError.message : ParseIntError → Bytes
  | .empty => str "cannot parse integer from empty string"
  | .invalidDigit => str "invalid digit found in string"
  | .posOverflow => str "number too large to fit in target type"

/-- A register: 64 bits of hex, of which the low 32 are kept. -/
def parseHex (s : Bytes) : Except Bytes Word :=
  let s := stripPrefix (str "0x") (trim s)
  match fromStrRadix16 64 s with
  | .ok v => .ok (BitVec.ofNat 32 v)
  | .error e => .error (str "bad hex " ++ s ++ str ": " ++ ParseIntError.message e)

/-- `map.insert(k, v)`; a later field replaces an earlier one. -/
def insertField (map : Bytes → Option Bytes) (f : Bytes × Bytes) : Bytes → Option Bytes :=
  Function.update map f.1 (some f.2)

def fieldMap (fields : List (Bytes × Bytes)) : Bytes → Option Bytes :=
  fields.foldl insertField fun _ => none

/-- One slot of the state from its blob, which is addressed backwards from 0x2000. -/
def storeSlot (stRaw : Bytes) (st : St) (off : Nat) : St :=
  if off ≥ stSize then st
  else
    match wordAt stRaw (0x2000 - off) with
    | some w => st.setIfInBounds off w
    | none => st

def stFromRaw (stRaw : Bytes) : St := stSlots.foldl (storeSlot stRaw) (Vector.replicate stSize 0)

/-- The part of template_from_json after the fields are in the map. -/
def templateFromFields (map : Bytes → Option Bytes) : Except Bytes Template := do
  let reg (name : String) : Except Bytes Word := parseHex ((map (str name)).getD (str "0x0"))
  let some ctxB64 := map (str "ctx") | throw (str "no ctx field")
  let some stateB64 := map (str "state") | throw (str "no state field")
  let rcx ← reg "rcx"
  let rax ← reg "rax"
  let rdx ← reg "rdx"
  let r9 ← reg "r9"
  let rbp ← reg "rbp"
  let ctx := base64Decode ctxB64
  if ctx.length < ctxSize then throw (str "ctx too short: " ++ str (toString ctx.length))
  let stRaw := base64Decode stateB64
  if stRaw.length < 0x2000 then throw (str "state too short: " ++ str (toString stRaw.length))
  return { ctx, stInit := stFromRaw stRaw, r1Entry := { rdx, rcx, rax, r9, rbp } }

def templateFromJson (json : Bytes) : Option (Except Bytes Template) := do
  let fields ← parseFlatJson json
  return templateFromFields (fieldMap fields)

/-- The register of this name, which counts as zero where the field is missing. -/
def registerOf (map : Bytes → Option Bytes) (name : String) : Except Bytes Word :=
  parseHex ((map (str name)).getD (str "0x0"))

/-- The fields from which the loader made the template, with the checks they passed. -/
structure MadeFrom (map : Bytes → Option Bytes) (T : Template) : Prop where
  ctx : ∃ b, map (str "ctx") = some b ∧ T.ctx = base64Decode b
  ctx_size : ctxSize ≤ T.ctx.length
  state : ∃ b, map (str "state") = some b ∧ T.stInit = stFromRaw (base64Decode b) ∧
    0x2000 ≤ (base64Decode b).length
  rcx : registerOf map "rcx" = .ok T.r1Entry.rcx
  rax : registerOf map "rax" = .ok T.r1Entry.rax
  rdx : registerOf map "rdx" = .ok T.r1Entry.rdx
  r9 : registerOf map "r9" = .ok T.r1Entry.r9
  rbp : registerOf map "rbp" = .ok T.r1Entry.rbp

theorem templateFromFields_ok {map : Bytes → Option Bytes} {T : Template}
    (h : templateFromFields map = .ok T) : MadeFrom map T := by
  simp only [templateFromFields, bind, Except.bind, pure, Except.pure, throw, throwThe,
    MonadExceptOf.throw] at h
  repeat' split at h
  all_goals cases h
  next hctx _ _ hstate _ _ hrcx _ _ hrax _ _ hrdx _ _ hr9 _ _ hrbp hsize hstsize =>
    refine ⟨⟨_, hctx, rfl⟩, Nat.not_lt.mp hsize, ⟨_, hstate, ?_, Nat.not_lt.mp hstsize⟩, hrcx, hrax,
      hrdx, hr9, hrbp⟩
    dsimp only

theorem templateFromJson_ok {json : Bytes} {T : Template}
    (h : templateFromJson json = some (.ok T)) :
    ∃ fields, parseFlatJson json = some fields ∧ MadeFrom (fieldMap fields) T := by
  obtain ⟨fields, hfields, hT⟩ := Option.bind_eq_some_iff.mp h
  exact ⟨fields, hfields, templateFromFields_ok (Option.some.inj hT)⟩

end Temari.TemplateLoader
