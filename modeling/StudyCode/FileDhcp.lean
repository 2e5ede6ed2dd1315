import StudyCode.TextLines

/-!
# The update of dhcpd.conf

The file is a text of characters without NUL. It is read line by line with
fgets and, behind the head of a block that is replaced, character by
character up to the closing brace. The new file is what was printed.
-/

namespace StudyCode.FileDhcp

open TextLines

/-- A text. -/
abbrev Text := List Char

/-! ## write_config_info -/

/-- The conversion %d of a number that is not negative. -/
def dec (n : ℕ) : Text := Nat.toDigits 10 n

/-- The conversion %02x of a byte. -/
def hex2 (b : UInt8) : Text := [Nat.digitChar (b.toNat/16),Nat.digitChar (b.toNat%16)]

/-- The string mac_string. -/
def macString (mac : Fin 6 → UInt8) : Text :=
  hex2 (mac 0)++ ':'::hex2 (mac 1)++ ':'::hex2 (mac 2)++ ':'::hex2 (mac 3)++ ':'::hex2 (mac 4)++
    ':'::hex2 (mac 5)

/-- The function inet_ntoa after ntohl: the highest byte of the number first. -/
def inetNtoa (ipaddr : UInt32) : Text :=
  dec (ipaddr.toNat/2^24%256)++ '.'::dec (ipaddr.toNat/2^16%256)++ '.'::dec (ipaddr.toNat/2^8%256)++
    '.'::dec (ipaddr.toNat%256)

/-- The string readoption. -/
def readOption (slotId moduleId : ℕ) : Text :=
  "slot".toList++dec slotId++ "_module".toList++dec moduleId

/-- HARD_ADDR. -/
def hardAddr : Text := "    hardware ethernet".toList

/-- FIXED_ADDR. -/
def fixedAddr : Text := "    fixed-address".toList

/-- OPTION. -/
def option : Text :=
  "    option octeon-boot-command \"bootoct 0 coremask=0xff ip=$(ipaddr)\";".toList

/-- FILE_NAME. -/
def fileName : Text := "    filename \"pa_main.strip\";".toList

/-- write_config_info. -/
def writeConfigInfo (readoption macString ipString : Text) : Text :=
  "host".toList++ ' '::readoption++ " \x7b\n".toList++(hardAddr++ ' '::macString++ ";\n".toList)++
    (fixedAddr++ ' '::ipString++ ";\n".toList)++(option++ "\n".toList)++(fileName++ "\n".toList)++
    "\x7d\n".toList

/-! ## update_dhcpd_conf_file -/

/-- The function fgets with room for a number of characters: the line and the
rest of the file. -/
def fgets : ℕ → Text → Text × Text
  | 0,s => ([],s)
  | _+1,[] => ([],[])
  | n+1,c::s => if c= '\n' then ([c],s) else (c::(fgets n s).1,(fgets n s).2)

/-- The loop over fgetc up to a closing brace. -/
def skipBrace : Text → Text
  | [] => []
  | c::s => if c= '\x7d' then s else skipBrace s

/-- The function strstr. -/
def strstr (haystack needle : Text) : Bool := decide (needle <:+: haystack)

/-- The function fgets takes a line. -/
theorem fgets_eq (n : ℕ) (s : Text) : fgets n s=takeLine '\n' n s := by
  induction n generalizing s with
  | zero => rfl
  | succ n ih =>
    cases s with
    | nil => rfl
    | cons c s => rw [fgets,takeLine,ih]

/-- What fgets takes and leaves is the text. -/
theorem fgets_append (n : ℕ) (s : Text) : (fgets n s).1++(fgets n s).2=s := by
  rw [fgets_eq]
  exact takeLine_append '\n' n s

/-- Skipping does not make the text longer. -/
theorem skipBrace_length (s : Text) : (skipBrace s).length ≤ s.length := by
  induction s with
  | nil => exact le_rfl
  | cons c s ih =>
    unfold skipBrace
    split
    · exact Nat.le_succ _
    · exact ih.trans (Nat.le_succ _)

/-- The loop over the lines: whether the host was found, and what was printed. -/
def rewriteLoop (readoption config : Text) (s : Text) (found : Bool) (out : Text) : Bool × Text :=
  match h : fgets 127 s with
  | ([],_) => (found,out)
  | (c::line,rest) =>
    have hlen : rest.length < s.length := by
      have happ := congrArg List.length (fgets_append 127 s)
      rw [h,List.length_append,List.length_cons] at happ
      dsimp only at happ
      omega
    have hskip := skipBrace_length rest
    if c= '\n' then rewriteLoop readoption config rest found out
    else if c= '#' then rewriteLoop readoption config rest found (out++c::line)
    else if !strstr (c::line) "host slot".toList then
      rewriteLoop readoption config rest found (out++c::line)
    else if !strstr (c::line) readoption then
      rewriteLoop readoption config rest found (out++c::line)
    else rewriteLoop readoption config (skipBrace rest) true (out++config)
termination_by s.length

/-- The results of the file operations. -/
structure Files where
  /-- The file exists. -/
  access : Bool
  /-- The file is opened. -/
  fopen : Bool
  /-- The temporary file is opened. -/
  fopenTemp : Bool

/-- The arguments of an update. -/
structure Update where
  /-- The address. -/
  ipaddr : UInt32
  /-- The hardware address. -/
  mac : Fin 6 → UInt8
  /-- The slot. -/
  slotId : ℕ
  /-- The module. -/
  moduleId : ℕ

/-- The option text of an update. -/
def Update.opt (u : Update) : Text := readOption u.slotId u.moduleId

/-- The block that an update prints. -/
def Update.config (u : Update) : Text := writeConfigInfo u.opt (macString u.mac) (inetNtoa u.ipaddr)

/-- update_dhcpd_conf_file: the return value and the file. -/
def updateDhcpdConfFile (ops : Files) (u : Update) (file : Text) : ℤ × Text :=
  if !ops.access then (1,file)
  else if !ops.fopen then (2,file)
  else if !ops.fopenTemp then (2,file)
  else
    let r := rewriteLoop u.opt u.config file false []
    (0,if r.1 then r.2 else r.2++u.config)

/-! ## Configuration files -/

/-- A line without a newline and a NUL, of less than 127 characters. -/
structure LineOk (t : Text) : Prop where
  /-- No newline. -/
  newline : '\n' ∉ t
  /-- No NUL. -/
  nul : '\x00' ∉ t
  /-- The length. -/
  short : t.length < 127

/-- The first line of the block of a host. -/
def header (slotId moduleId : ℕ) : Text :=
  "host ".toList++readOption slotId moduleId++ " \x7b".toList

/-- The line that closes a block. -/
def brace : Text := ['\x7d']

/-- A part of a configuration file. -/
inductive Item where
  /-- A line outside of the blocks. -/
  | line (t : Text)
  /-- The block of a host with its inner lines. -/
  | block (slotId moduleId : ℕ) (body : List Text)

/-- The lines of a part. -/
def Item.lines : Item → List Text
  | .line t => [t]
  | .block s m body => header s m::body++[brace]

/-- The host of a block. -/
def Item.host : Item → Option (ℕ × ℕ)
  | .line _ => none
  | .block s m _ => some (s,m)

/-- A comment line, a line without the words of a head, or a block without an
inner brace. -/
def Item.Ok : Item → Prop
  | .line t => LineOk t ∧ (t.head?=some '#' ∨ ¬"host slot".toList <:+: t)
  | .block s m body => (header s m).length < 127 ∧ ∀ t ∈ body,LineOk t ∧ '\x7d' ∉ t

/-- A configuration file whose hosts are pairwise distinct. -/
structure Config where
  /-- The parts. -/
  items : List Item
  /-- Every part is well formed. -/
  ok : ∀ it ∈ items,it.Ok
  /-- The hosts. -/
  distinct : (items.filterMap Item.host).Nodup

/-- The text of a configuration file. -/
def Config.text (c : Config) : Text := unlines '\n' (c.items.flatMap Item.lines)

/-- The lines of the block that an update prints, but the last. -/
def Update.inner (u : Update) : List Text :=
  [header u.slotId u.moduleId,hardAddr++ ' '::macString u.mac++[';'],
    fixedAddr++ ' '::inetNtoa u.ipaddr++[';'],option,fileName]

/-- The lines that are not blank. -/
def nonblank (ls : List Text) : List Text := ls.filter fun t => !t.isEmpty

/-- The new lines for a part: the block of the host is replaced. -/
def Item.updated (u : Update) : Item → List Text
  | .line t => nonblank [t]
  | .block s m body =>
    if (s,m)=(u.slotId,u.moduleId) then u.inner++[brace]
    else header s m::nonblank body++[brace]

/-- Whether a host has a block. -/
def Config.present (c : Config) (u : Update) : Bool :=
  c.items.any fun it => it.host=some (u.slotId,u.moduleId)

/-- The file after an update: without blank lines, with the block of the host
replaced, or appended when there was none. -/
def Config.updated (c : Config) (u : Update) : Text :=
  unlines '\n' (c.items.flatMap (Item.updated u)++if c.present u then [] else u.inner++[brace])

end StudyCode.FileDhcp
