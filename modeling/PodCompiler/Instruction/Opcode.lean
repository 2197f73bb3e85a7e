namespace PodCompiler

-- What follows an opcode: nothing, a table index, a jump target, two type refs, or a count with
-- that many jump targets.
inductive OperandShape where
  | none
  | index
  | jump
  | typePair
  | switch
  deriving DecidableEq, Repr

def OperandShape.name : OperandShape → String
  | .none => "None"
  | .index => "Index"
  | .jump => "Jump"
  | .typePair => "TypePair"
  | .switch => "Switch"

-- The instructions of fcode.
inductive Opcode where
  | nop
  | loadNull
  | loadFalse
  | loadTrue
  | loadInt
  | loadFloat
  | loadStr
  | loadDuration
  | loadType
  | loadUri
  | loadVar
  | storeVar
  | loadInstance
  | storeInstance
  | loadStatic
  | storeStatic
  | coerce
  | loadMixinStatic
  | storeMixinStatic
  | callNew
  | callCtor
  | callStatic
  | callVirtual
  | callNonVirtual
  | callMixinStatic
  | callMixinVirtual
  | callMixinNonVirtual
  | jump
  | jumpTrue
  | jumpFalse
  | compareEQ
  | compareNE
  | compare
  | compareLE
  | compareLT
  | compareGT
  | compareGE
  | compareSame
  | compareNotSame
  | compareNull
  | compareNotNull
  | returnVoid
  | returnObj
  | pop
  | dup
  | dupDown
  | is
  | as
  | cast
  | switch
  | throw
  | leave
  | jumpFinally
  | catchAllStart
  | catchErrStart
  | catchEnd
  | finallyStart
  | finallyEnd
  | loadDecimal
  deriving DecidableEq, Repr

namespace Opcode

-- The instruction that a byte stands for.
def ofByte? (b : UInt8) : Option Opcode :=
  match b.toNat with
  | 0 => some .nop
  | 1 => some .loadNull
  | 2 => some .loadFalse
  | 3 => some .loadTrue
  | 4 => some .loadInt
  | 5 => some .loadFloat
  | 6 => some .loadStr
  | 7 => some .loadDuration
  | 8 => some .loadType
  | 9 => some .loadUri
  | 10 => some .loadVar
  | 11 => some .storeVar
  | 12 => some .loadInstance
  | 13 => some .storeInstance
  | 14 => some .loadStatic
  | 15 => some .storeStatic
  | 16 => some .coerce
  | 18 => some .loadMixinStatic
  | 19 => some .storeMixinStatic
  | 20 => some .callNew
  | 21 => some .callCtor
  | 22 => some .callStatic
  | 23 => some .callVirtual
  | 24 => some .callNonVirtual
  | 25 => some .callMixinStatic
  | 26 => some .callMixinVirtual
  | 27 => some .callMixinNonVirtual
  | 28 => some .jump
  | 29 => some .jumpTrue
  | 30 => some .jumpFalse
  | 31 => some .compareEQ
  | 32 => some .compareNE
  | 33 => some .compare
  | 34 => some .compareLE
  | 35 => some .compareLT
  | 36 => some .compareGT
  | 37 => some .compareGE
  | 38 => some .compareSame
  | 39 => some .compareNotSame
  | 40 => some .compareNull
  | 41 => some .compareNotNull
  | 42 => some .returnVoid
  | 43 => some .returnObj
  | 44 => some .pop
  | 45 => some .dup
  | 46 => some .dupDown
  | 47 => some .is
  | 48 => some .as
  | 49 => some .cast
  | 50 => some .switch
  | 51 => some .throw
  | 52 => some .leave
  | 53 => some .jumpFinally
  | 54 => some .catchAllStart
  | 55 => some .catchErrStart
  | 56 => some .catchEnd
  | 57 => some .finallyStart
  | 58 => some .finallyEnd
  | 59 => some .loadDecimal
  | _ => none

-- The byte that stands for an instruction.
def byte : Opcode → UInt8
  | .nop => 0
  | .loadNull => 1
  | .loadFalse => 2
  | .loadTrue => 3
  | .loadInt => 4
  | .loadFloat => 5
  | .loadStr => 6
  | .loadDuration => 7
  | .loadType => 8
  | .loadUri => 9
  | .loadVar => 10
  | .storeVar => 11
  | .loadInstance => 12
  | .storeInstance => 13
  | .loadStatic => 14
  | .storeStatic => 15
  | .coerce => 16
  | .loadMixinStatic => 18
  | .storeMixinStatic => 19
  | .callNew => 20
  | .callCtor => 21
  | .callStatic => 22
  | .callVirtual => 23
  | .callNonVirtual => 24
  | .callMixinStatic => 25
  | .callMixinVirtual => 26
  | .callMixinNonVirtual => 27
  | .jump => 28
  | .jumpTrue => 29
  | .jumpFalse => 30
  | .compareEQ => 31
  | .compareNE => 32
  | .compare => 33
  | .compareLE => 34
  | .compareLT => 35
  | .compareGT => 36
  | .compareGE => 37
  | .compareSame => 38
  | .compareNotSame => 39
  | .compareNull => 40
  | .compareNotNull => 41
  | .returnVoid => 42
  | .returnObj => 43
  | .pop => 44
  | .dup => 45
  | .dupDown => 46
  | .is => 47
  | .as => 48
  | .cast => 49
  | .switch => 50
  | .throw => 51
  | .leave => 52
  | .jumpFinally => 53
  | .catchAllStart => 54
  | .catchErrStart => 55
  | .catchEnd => 56
  | .finallyStart => 57
  | .finallyEnd => 58
  | .loadDecimal => 59

def name : Opcode → String
  | .nop => "Nop"
  | .loadNull => "LoadNull"
  | .loadFalse => "LoadFalse"
  | .loadTrue => "LoadTrue"
  | .loadInt => "LoadInt"
  | .loadFloat => "LoadFloat"
  | .loadStr => "LoadStr"
  | .loadDuration => "LoadDuration"
  | .loadType => "LoadType"
  | .loadUri => "LoadUri"
  | .loadVar => "LoadVar"
  | .storeVar => "StoreVar"
  | .loadInstance => "LoadInstance"
  | .storeInstance => "StoreInstance"
  | .loadStatic => "LoadStatic"
  | .storeStatic => "StoreStatic"
  | .coerce => "Coerce"
  | .loadMixinStatic => "LoadMixinStatic"
  | .storeMixinStatic => "StoreMixinStatic"
  | .callNew => "CallNew"
  | .callCtor => "CallCtor"
  | .callStatic => "CallStatic"
  | .callVirtual => "CallVirtual"
  | .callNonVirtual => "CallNonVirtual"
  | .callMixinStatic => "CallMixinStatic"
  | .callMixinVirtual => "CallMixinVirtual"
  | .callMixinNonVirtual => "CallMixinNonVirtual"
  | .jump => "Jump"
  | .jumpTrue => "JumpTrue"
  | .jumpFalse => "JumpFalse"
  | .compareEQ => "CompareEQ"
  | .compareNE => "CompareNE"
  | .compare => "Compare"
  | .compareLE => "CompareLE"
  | .compareLT => "CompareLT"
  | .compareGT => "CompareGT"
  | .compareGE => "CompareGE"
  | .compareSame => "CompareSame"
  | .compareNotSame => "CompareNotSame"
  | .compareNull => "CompareNull"
  | .compareNotNull => "CompareNotNull"
  | .returnVoid => "ReturnVoid"
  | .returnObj => "ReturnObj"
  | .pop => "Pop"
  | .dup => "Dup"
  | .dupDown => "DupDown"
  | .is => "Is"
  | .as => "As"
  | .cast => "Cast"
  | .switch => "Switch"
  | .throw => "Throw"
  | .leave => "Leave"
  | .jumpFinally => "JumpFinally"
  | .catchAllStart => "CatchAllStart"
  | .catchErrStart => "CatchErrStart"
  | .catchEnd => "CatchEnd"
  | .finallyStart => "FinallyStart"
  | .finallyEnd => "FinallyEnd"
  | .loadDecimal => "LoadDecimal"

def shape : Opcode → OperandShape
  | .nop | .loadNull | .loadFalse | .loadTrue
  | .compareSame | .compareNotSame
  | .returnVoid | .returnObj | .dupDown | .throw
  | .catchAllStart | .catchEnd | .finallyStart | .finallyEnd => .none
  | .jump | .jumpTrue | .jumpFalse | .leave | .jumpFinally => .jump
  | .coerce | .compareEQ | .compareNE | .compare | .compareLE | .compareLT | .compareGT
  | .compareGE => .typePair
  | .switch => .switch
  | _ => .index

def isCall : Opcode → Bool
  | .callNew | .callCtor | .callStatic | .callVirtual | .callNonVirtual | .callMixinStatic
  | .callMixinVirtual | .callMixinNonVirtual => true
  | _ => false

def isCompare : Opcode → Bool
  | .compareEQ | .compareNE | .compare | .compareLE | .compareLT | .compareGT | .compareGE
  | .compareSame | .compareNotSame | .compareNull | .compareNotNull => true
  | _ => false

-- Whether an operand is a jump target.
def isBranch (op : Opcode) : Bool :=
  op.shape = .jump || op.shape = .switch

theorem ofByte?_byte (op : Opcode) : ofByte? op.byte = some op := by
  cases op <;> rfl

end Opcode

end PodCompiler
