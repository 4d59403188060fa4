import IotBase.JsonApi

/-! Reading a configuration file into a JSON document. The parser is a parameter: what it does
with a text is not this file's. -/
namespace IotBase
namespace JsonFile
open RawBytes CString JsonApi
open MapfileStore (toSizeT toSizeT_of_nonneg)

def jsonConfFileMaxSize : ℕ := 10*1024

/-- What the system answers: the `st_size` that `stat` stores, unless it fails, and the bytes
that `fread` gets before the end of the file or an error. -/
structure FileEnv where
  stat : Option (BitVec 64)
  mallocFails : Bool := false
  fopenFails : Bool := false
  content : Bytes

def bufStr (buf : Bytes) : CStr := ⟨fieldStr buf,nul_notMem_fieldStr buf⟩

def jsonGetFileSize (env : FileEnv) (filepath : Option CStr) : ℕ :=
  match filepath with
  | none => 0
  | some _ =>
    match env.stat with
    | some stSize => toSizeT stSize.toInt
    | none => 0

/-- `json_read_file`: the result and `*json_conf_root`, NULL being `none`. -/
def jsonReadFile (cJSONParse : CStr → Option CJson) (env : FileEnv) (filepath : Option CStr)
    (jsonConfRoot : Option CJson) : Ret × Option CJson :=
  match filepath with
  | none => (.fail,jsonConfRoot)
  | some filepath =>
    let size := jsonGetFileSize env (some filepath)
    if size = 0 then (.fail,jsonConfRoot)
    else if size > jsonConfFileMaxSize then (.fail,jsonConfRoot)
    else if env.mallocFails then (.fail,jsonConfRoot)
    else
      let buf := List.replicate (size+1) 0
      if env.fopenFails then (.fail,jsonConfRoot)
      else
        let read := env.content.take size
        let buf := memcpy buf read read.length
        if read.length ≠ size then (.fail,jsonConfRoot)
        else (.ok,cJSONParse (bufStr buf))

/-- The file is reported with `n` bytes, no more than a configuration may have, and all of them
are read. -/
structure ReadInFull (env : FileEnv) (filepath : Option CStr) (n : ℕ) : Prop where
  named : filepath ≠ none
  size : ∃ stSize, env.stat = some stSize ∧ stSize.toInt = n
  one_le : 1 ≤ n
  le_max : n ≤ jsonConfFileMaxSize
  malloc : env.mallocFails = false
  fopen : env.fopenFails = false
  read : n ≤ env.content.length

/-- The text of the first `n` bytes: they end at a NUL among them. -/
def fileText (env : FileEnv) (n : ℕ) : CStr := bufStr (env.content.take n)

/-- A call succeeds exactly when it stores a document, the one its file spells, and a call that
fails stores nothing. -/
structure Delivers (cJSONParse : CStr → Option CJson) (env : FileEnv) (filepath : Option CStr)
    (jsonConfRoot : Option CJson) : Prop where
  ok_iff : (jsonReadFile cJSONParse env filepath jsonConfRoot).1 = .ok ↔
    ∃ n tree, ReadInFull env filepath n ∧ cJSONParse (fileText env n) = some tree ∧
      (jsonReadFile cJSONParse env filepath jsonConfRoot).2 = some tree
  fail : (jsonReadFile cJSONParse env filepath jsonConfRoot).1 = .fail →
    (jsonReadFile cJSONParse env filepath jsonConfRoot).2 = jsonConfRoot

theorem bufStr_memcpy {read : Bytes} {n : ℕ} (h : read.length = n) :
    bufStr (memcpy (List.replicate (n+1) 0) read read.length) = bufStr read := by
  have hfits : 0+read.length ≤ (List.replicate (n+1) (0 : UInt8)).length := by
    rw [List.length_replicate]
    omega
  have hbuf : memcpy (List.replicate (n+1) 0) read read.length = read ++ [0] := by
    rw [memcpy,List.take_length,splice_fits hfits,List.take_zero,List.nil_append,
      List.drop_replicate,Nat.zero_add,h,Nat.add_sub_cancel_left,List.replicate_one]
  apply CStr.ext_bytes
  change fieldStr _ = fieldStr read
  rw [hbuf,fieldStr,fieldStr,List.takeWhile_append]
  split
  · rename_i hall
    rw [List.takeWhile_cons_of_neg (by simp),List.append_nil]
    exact (List.takeWhile_prefix _).eq_of_length hall |>.symm
  · rfl

section calls
variable (cJSONParse : CStr → Option CJson) {env : FileEnv} {filepath : Option CStr}
  (jsonConfRoot : Option CJson) {n : ℕ}

theorem ReadInFull.unique {m : ℕ} (h : ReadInFull env filepath n) (hm : ReadInFull env filepath m) :
    n = m := by
  obtain ⟨s,hs,hn⟩ := h.size
  obtain ⟨t,ht,hm⟩ := hm.size
  obtain rfl : s = t := Option.some.inj (hs.symm.trans ht)
  omega

theorem ReadInFull.fileSize (h : ReadInFull env filepath n) : jsonGetFileSize env filepath = n := by
  obtain ⟨filepath,rfl⟩ := Option.ne_none_iff_exists'.mp h.named
  obtain ⟨stSize,hstat,hn⟩ := h.size
  have hmax : n ≤ 10*1024 := h.le_max
  simp only [jsonGetFileSize,hstat,hn]
  rw [toSizeT_of_nonneg (by omega) (by omega)]
  rfl

theorem jsonReadFile_full (h : ReadInFull env filepath n) :
    jsonReadFile cJSONParse env filepath jsonConfRoot = (.ok,cJSONParse (fileText env n)) := by
  have hsize := h.fileSize
  have hread : (env.content.take n).length = n := List.length_take_of_le h.read
  have hpos : n ≠ 0 := by
    have := h.one_le
    omega
  obtain ⟨filepath,rfl⟩ := Option.ne_none_iff_exists'.mp h.named
  simp only [jsonReadFile,hsize,if_neg hpos,if_neg (Nat.not_lt.mpr h.le_max),h.malloc,h.fopen,
    if_neg (not_not.mpr hread),Bool.false_eq_true,if_false]
  rw [bufStr_memcpy hread,fileText]

theorem size_of_toSizeT {stSize : BitVec 64} (hmax : toSizeT stSize.toInt ≤ jsonConfFileMaxSize) :
    stSize.toInt = toSizeT stSize.toInt := by
  have hlo : -2^63 ≤ stSize.toInt := BitVec.le_toInt stSize
  have hhi : stSize.toInt < 2^63 := BitVec.toInt_lt
  rw [toSizeT,jsonConfFileMaxSize] at hmax
  rw [toSizeT]
  omega

theorem jsonReadFile_unread (h : ∀ n, ¬ ReadInFull env filepath n) :
    jsonReadFile cJSONParse env filepath jsonConfRoot = (.fail,jsonConfRoot) := by
  cases filepath with
  | none => rfl
  | some filepath =>
    rw [jsonReadFile]
    dsimp only
    split_ifs with hzero hmax hmalloc hfopen hread
    · rfl
    · rfl
    · rfl
    · rfl
    · rfl
    · exfalso
      cases hstat : env.stat with
      | none => exact hzero (by simp only [jsonGetFileSize,hstat])
      | some stSize =>
        have hsize : jsonGetFileSize env (some filepath) = toSizeT stSize.toInt := by
          simp only [jsonGetFileSize,hstat]
        rw [hsize] at hzero hmax hread
        have hlen := not_not.mp hread
        rw [List.length_take] at hlen
        exact h (toSizeT stSize.toInt) ⟨by simp,⟨stSize,hstat,size_of_toSizeT (Nat.not_lt.mp hmax)⟩,
          Nat.pos_of_ne_zero hzero,Nat.not_lt.mp hmax,Bool.eq_false_iff.mpr hmalloc,
          Bool.eq_false_iff.mpr hfopen,by omega⟩

end calls

/-- The call delivers exactly where a file that is read in full parses. -/
theorem jsonReadFile_delivers_iff (cJSONParse : CStr → Option CJson) (env : FileEnv)
    (filepath : Option CStr) (jsonConfRoot : Option CJson) :
    Delivers cJSONParse env filepath jsonConfRoot ↔
      ∀ n, ReadInFull env filepath n → cJSONParse (fileText env n) ≠ none := by
  constructor
  · intro h n hn hparse
    have hcall := jsonReadFile_full cJSONParse jsonConfRoot hn
    obtain ⟨m,tree,hm,htree,-⟩ := h.ok_iff.mp (by rw [hcall])
    rw [← hn.unique hm,hparse] at htree
    cases htree
  · intro h
    by_cases hfull : ∃ n, ReadInFull env filepath n
    · obtain ⟨n,hn⟩ := hfull
      have hcall := jsonReadFile_full cJSONParse jsonConfRoot hn
      obtain ⟨tree,htree⟩ := Option.ne_none_iff_exists'.mp (h n hn)
      rw [htree] at hcall
      constructor
      · rw [hcall]
        exact ⟨fun _ => ⟨n,tree,hn,htree,rfl⟩,fun _ => rfl⟩
      · rw [hcall]
        rintro ⟨⟩
    · have hcall := jsonReadFile_unread cJSONParse jsonConfRoot (not_exists.mp hfull)
      constructor
      · rw [hcall]
        constructor
        · rintro ⟨⟩
        · rintro ⟨n,tree,hn,-⟩
          exact absurd ⟨n,hn⟩ hfull
      · rw [hcall]
        exact fun _ => rfl

def parseZero (value : CStr) : Option CJson :=
  if value.bytes = [48] then some (.item none .number []) else none

/-- The file `{` of one byte, which is no document. -/
def braceFile : FileEnv := { stat := some 1, content := [123] }

/-- The unfinished document is reported as a success, with NULL for the root. -/
theorem jsonReadFile_malformed :
    ¬ Delivers parseZero braceFile (some ⟨[99],by decide⟩) (some (.item none .null [])) := by
  intro h
  obtain ⟨n,tree,-,-,hroot⟩ := h.ok_iff.mp (by decide +kernel)
  have hnull : (jsonReadFile parseZero braceFile (some ⟨[99],by decide⟩)
    (some (.item none .null []))).2.isNone := by decide +kernel
  rw [hroot] at hnull
  exact absurd hnull (by simp)

end JsonFile
end IotBase
