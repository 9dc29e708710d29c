import ActionBlock.Opcode.Table

/-!
# The standard opcode table

The actions of the tenth version of the file format.
-/

namespace ActionBlock.OpcodeTable

/-- The entries of the standard table: code, mnemonic, values popped and pushed, layout. -/
def standardEntries : List OpcodeEntry :=
  [.make 0x04 "next_frame" 0 0 .plain,
   .make 0x05 "previous_frame" 0 0 .plain,
   .make 0x06 "play" 0 0 .plain,
   .make 0x07 "stop" 0 0 .plain,
   .make 0x08 "toggle_quality" 0 0 .plain,
   .make 0x09 "stop_sounds" 0 0 .plain,
   .make 0x0A "add" 2 1 .plain,
   .make 0x0B "subtract" 2 1 .plain,
   .make 0x0C "multiply" 2 1 .plain,
   .make 0x0D "divide" 2 1 .plain,
   .make 0x0E "equals" 2 1 .plain,
   .make 0x0F "less" 2 1 .plain,
   .make 0x10 "and" 2 1 .plain,
   .make 0x11 "or" 2 1 .plain,
   .make 0x12 "not" 1 1 .plain,
   .make 0x13 "string_equals" 2 1 .plain,
   .make 0x14 "string_length" 1 1 .plain,
   .make 0x15 "string_extract" 3 1 .plain,
   .make 0x17 "pop" 1 0 .plain,
   .make 0x18 "to_integer" 1 1 .plain,
   .make 0x1C "get_variable" 1 1 .plain,
   .make 0x1D "set_variable" 2 0 .plain,
   .make 0x20 "set_target2" 1 0 .plain,
   .make 0x21 "string_add" 2 1 .plain,
   .make 0x22 "get_property" 2 1 .plain,
   .make 0x23 "set_property" 3 0 .plain,
   .make 0x24 "clone_sprite" 3 0 .plain,
   .make 0x25 "remove_sprite" 1 0 .plain,
   .make 0x26 "trace" 1 0 .plain,
   .make 0x27 "start_drag" 3 0 .plain,
   .make 0x28 "end_drag" 0 0 .plain,
   .make 0x29 "string_less" 2 1 .plain,
   .make 0x2A "throw" 1 0 .plain,
   .make 0x2B "cast_op" 2 1 .plain,
   .make 0x2C "implements_op" 2 0 .plain,
   .make 0x2D "fs_command2" 1 1 .plain,
   .make 0x30 "random_number" 1 1 .plain,
   .make 0x31 "mb_string_length" 1 1 .plain,
   .make 0x32 "char_to_ascii" 1 1 .plain,
   .make 0x33 "ascii_to_char" 1 1 .plain,
   .make 0x34 "get_time" 0 1 .plain,
   .make 0x35 "mb_string_extract" 3 1 .plain,
   .make 0x36 "mb_char_to_ascii" 1 1 .plain,
   .make 0x37 "mb_ascii_to_char" 1 1 .plain,
   .make 0x3A "delete" 2 1 .plain,
   .make 0x3B "delete2" 1 1 .plain,
   .make 0x3C "define_local" 2 0 .plain,
   .make 0x3D "call_function" 2 1 .plain,
   .make 0x3E "return" 1 0 .plain,
   .make 0x3F "modulo" 2 1 .plain,
   .make 0x40 "new_object" 2 1 .plain,
   .make 0x41 "define_local2" 1 0 .plain,
   .make 0x42 "init_array" 1 1 .plain,
   .make 0x43 "init_object" 1 1 .plain,
   .make 0x44 "type_of" 1 1 .plain,
   .make 0x45 "target_path" 1 1 .plain,
   .make 0x46 "enumerate" 1 1 .plain,
   .make 0x47 "add2" 2 1 .plain,
   .make 0x48 "less2" 2 1 .plain,
   .make 0x49 "equals2" 2 1 .plain,
   .make 0x4A "to_number" 1 1 .plain,
   .make 0x4B "to_string" 1 1 .plain,
   .make 0x4C "push_duplicate" 1 2 .plain,
   .make 0x4D "stack_swap" 2 2 .plain,
   .make 0x4E "get_member" 2 1 .plain,
   .make 0x4F "set_member" 3 0 .plain,
   .make 0x50 "increment" 1 1 .plain,
   .make 0x51 "decrement" 1 1 .plain,
   .make 0x52 "call_method" 3 1 .plain,
   .make 0x53 "new_method" 3 1 .plain,
   .make 0x54 "instance_of" 2 1 .plain,
   .make 0x55 "enumerate2" 1 1 .plain,
   .make 0x60 "bit_and" 2 1 .plain,
   .make 0x61 "bit_or" 2 1 .plain,
   .make 0x62 "bit_xor" 2 1 .plain,
   .make 0x63 "bit_lshift" 2 1 .plain,
   .make 0x64 "bit_rshift" 2 1 .plain,
   .make 0x65 "bit_urshift" 2 1 .plain,
   .make 0x66 "strict_equals" 2 1 .plain,
   .make 0x67 "greater" 2 1 .plain,
   .make 0x68 "string_greater" 2 1 .plain,
   .make 0x69 "extends" 2 0 .plain,
   .make 0x81 "goto_frame" 0 0 .gotoFrame,
   .make 0x83 "get_url" 0 0 .getUrl,
   .make 0x87 "store_register" 1 1 .storeRegister,
   .make 0x88 "constant_pool" 0 0 .constantPool,
   .make 0x89 "strict_mode" 0 0 .strictMode,
   .make 0x8A "wait_for_frame" 0 0 .waitForFrame,
   .make 0x8B "set_target" 0 0 .string,
   .make 0x8C "goto_label" 0 0 .string,
   .make 0x8D "wait_for_frame2" 1 0 .waitForFrame2,
   .make 0x8E "define_function2" 0 0 .defineFunction2,
   .make 0x8F "try" 0 0 .tryCatch,
   .make 0x94 "with" 1 0 .withObject,
   .make 0x96 "push" 0 0 .push,
   .make 0x99 "jump" 0 0 .branch,
   .make 0x9A "get_url2" 2 0 .getUrl2,
   .make 0x9B "define_function" 0 0 .defineFunction,
   .make 0x9D "if" 1 0 .branch,
   .make 0x9E "call" 1 0 .plain,
   .make 0x9F "goto_frame2" 1 0 .gotoFrame2]

/-- The standard table, open for further entries. -/
def standard (id : TableId) : OpcodeTable :=
  ⟨id, standardEntries, keyed standardEntries, [], false⟩

/-- The standard table that all actions share unless another one is given. It is closed. -/
def shared : OpcodeTable :=
  { standard .shared with classes := keyed standardEntries, frozen := true }

end ActionBlock.OpcodeTable
