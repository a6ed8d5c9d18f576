import Zakura.Transparent.PageRow

/-! # Salted script tags

A tag is the first fourteen bytes of a salted hash of the script. The hash is the parameter `sha256`. -/

namespace Zakura.Transparent

abbrev BlockHash := FixedBytes 32

def scriptTagDomain : Bytes := asciiBytes "transparent-shard-script-tag-v2" ++ [0]

variable (sha256 : Bytes → FixedBytes 32)

def scriptTag (salt : FixedBytes 32) (script : Bytes) : Tag :=
  ⟨(sha256 (scriptTagDomain ++ salt.val ++ leBytes 2 script.length ++ script)).val.take 14, by simp⟩

end Zakura.Transparent
